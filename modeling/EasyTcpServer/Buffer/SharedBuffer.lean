import EasyTcpServer.Buffer.CellClient
import EasyTcpServer.Lib.Machine

/-!
# A send buffer shared by two threads

`addSendTask` hands a message to the task thread, which pushes it; the thread of the server
empties the buffer with `Write_to_Socket`.  Nothing orders the two.  The machine below takes both
functions apart at their accesses to `_nLast`: `push` tests the room, copies the message to where
`_nLast` then points, and adds to `_nLast`; `Write_to_Socket` sends what lies in front of
`_nLast` and sets it to zero.  `send` takes all it is given.

* A message whose `push` is completed between a `send` and the reset behind it is dropped.
* A reset between the copy of a message and the addition moves `_nLast` away from the copy, and
  what is in front of `_nLast` then is something else.

`shared_buffer_law` says that these are the only ways to lose a message or its place.

`push` is called by one thread for one message after another, with a pointer that is not null.
Its `delete` of the message is a matter of `Server.SendTask`.  The length is a short and the
buffer has 10240 bytes, so the sum of the two does not leave `int`.
-/

namespace EasyTcpServer
namespace SharedBuffer

/-- Where the task thread is in `push`. -/
inductive Pusher where
  | idle
  /-- The message has room. -/
  | checked (msg : List UInt8)
  /-- The message was copied to the position `dst`. -/
  | copied (msg : List UInt8) (dst : ℤ)
  deriving DecidableEq, Repr

structure State where
  buff : CellBuffer
  pusher : Pusher
  /-- Between `send` and the reset: how many bytes `send` has taken. -/
  writer : Option ℕ
  /-- What is on the wire. -/
  wire : List UInt8
  /-- The messages for which `push` returned true. -/
  accepted : List (List UInt8)
  deriving DecidableEq, Repr

inductive Act where
  /-- `push(msg, msg->dataLength)` is called and tests the room. -/
  | check (msg : List UInt8)
  /-- `memcpy(_pBuff + _nLast, pData, nLen)`. -/
  | copy
  /-- `_nLast += nLen`, and `push` returns true. -/
  | update
  /-- `send(sockfd, _pBuff, _nLast, 0)`. -/
  | send
  /-- `_nLast = 0`. -/
  | reset
  deriving DecidableEq, Repr

/-- What `sendData` passes to `push`: a pointer to at least as many bytes as the header says. -/
def Legal (msg : List UInt8) : Prop := 0 ≤ dataLength msg ∧ dataLength msg ≤ msg.length

instance (msg : List UInt8) : Decidable (Legal msg) := by
  unfold Legal
  infer_instance

/-- The bytes of the message. -/
def message (msg : List UInt8) : List UInt8 := msg.take (dataLength msg).toNat

variable (s : State)

/-- The test of `push`. -/
def check (msg : List UInt8) : State :=
  if s.buff.nLast + dataLength msg ≤ s.buff.nSize then { s with pusher := .checked msg }
  else { s with buff := { s.buff with sendBuffFullCount := s.buff.sendBuffFullCount + 1 } }

/-- The copy, which has no result outside the message or the buffer. -/
def copy (msg : List UInt8) : Option State := do
  let bytes ← Block.read msg 0 (dataLength msg)
  let mem ← Block.write s.buff.pBuff s.buff.nLast bytes
  return { s with buff := { s.buff with pBuff := mem }, pusher := .copied msg s.buff.nLast }

/-- The addition. -/
def update (msg : List UInt8) : State :=
  let nLast := s.buff.nLast + dataLength msg
  let count :=
    if nLast = s.buff.nSize then s.buff.sendBuffFullCount + 1 else s.buff.sendBuffFullCount
  { s with
    buff := { s.buff with nLast := nLast, sendBuffFullCount := count }
    pusher := .idle
    accepted := s.accepted ++ [message msg] }

/-- The call of `send`. -/
def send : State :=
  { s with writer := some s.buff.nLast.toNat, wire := s.wire ++ s.buff.sendRange }

/-- The reset. -/
def reset : State :=
  { s with buff := { s.buff with nLast := 0, sendBuffFullCount := 0 }, writer := none }

def step (s : State) : Act → Option State
  | .check msg => if s.pusher = .idle ∧ Legal msg then some (check s msg) else none
  | .copy =>
    match s.pusher with
    | .checked msg => copy s msg
    | _ => none
  | .update =>
    match s.pusher with
    | .copied msg _ => some (update s msg)
    | _ => none
  | .send => if s.writer = none ∧ s.buff.wantsSend true then some (send s) else none
  | .reset => if s.writer.isSome then some (reset s) else none

/-- How many of the bytes in front of `_nLast` are on the wire. -/
def State.sent : ℕ := s.writer.getD 0

/-- The bytes in the message's place: those behind `_nLast`. -/
def State.behind (msg : List UInt8) : List UInt8 :=
  (s.buff.pBuff.drop s.buff.nLast.toNat).take (dataLength msg).toNat

/-- **The law of the stream**: the bytes on the wire, and behind them those in front of `_nLast`
that are not, are the accepted messages in order. -/
def Law : Prop := s.wire ++ s.buff.content.drop s.sent = s.accepted.flatten

/-- The steps that keep the law: an addition that finds the message where `_nLast` points, and a
reset that finds `_nLast` where `send` found it. -/
def Undisturbed (s : State) : Act → Prop
  | .update =>
    match s.pusher with
    | .copied msg _ => s.behind msg = message msg
    | _ => True
  | .reset => s.buff.nLast = s.sent
  | _ => True

end SharedBuffer

open SharedBuffer in
/-- The send buffer of a client, between its two threads. -/
def sharedBuffer (mem : Vector UInt8 sendBuffSize) : Machine State Act where
  init := ⟨.new mem, .idle, none, [], []⟩
  step := step

namespace SharedBuffer

variable {s t : State} {i : Act} {msg : List UInt8} {dst : ℤ}

/-! ## What one step can do -/

theorem step_check (h : step s (.check msg) = some t) :
    s.pusher = .idle ∧ Legal msg ∧
      (s.buff.nLast + dataLength msg ≤ s.buff.nSize ∧ t = { s with pusher := .checked msg } ∨
        t = { s with
          buff := { s.buff with sendBuffFullCount := s.buff.sendBuffFullCount + 1 } }) := by
  obtain ⟨⟨hidle, hlegal⟩, rfl⟩ := Machine.guarded_eq_some.mp h
  refine ⟨hidle, hlegal, ?_⟩
  unfold check
  split_ifs with hroom
  · exact Or.inl ⟨hroom, rfl⟩
  · exact Or.inr rfl

theorem step_copy (h : step s .copy = some t) :
    ∃ msg bytes mem, s.pusher = .checked msg ∧ Block.read msg 0 (dataLength msg) = some bytes ∧
      Block.write s.buff.pBuff s.buff.nLast bytes = some mem ∧
      t = { s with buff := { s.buff with pBuff := mem }, pusher := .copied msg s.buff.nLast } := by
  cases hpusher : s.pusher with
  | idle => simp [step, hpusher] at h
  | copied msg dst => simp [step, hpusher] at h
  | checked msg =>
    simp only [step, hpusher, copy, bind, Option.bind_eq_some_iff, pure, Option.some.injEq] at h
    obtain ⟨bytes, hbytes, mem, hmem, rfl⟩ := h
    exact ⟨msg, bytes, mem, rfl, hbytes, hmem, rfl⟩

theorem step_update (h : step s .update = some t) :
    ∃ msg dst, s.pusher = .copied msg dst ∧ t = update s msg := by
  cases hpusher : s.pusher with
  | idle => simp [step, hpusher] at h
  | checked msg => simp [step, hpusher] at h
  | copied msg dst =>
    simp only [step, hpusher, Option.some.injEq] at h
    exact ⟨msg, dst, rfl, h.symm⟩

theorem step_send (h : step s .send = some t) :
    s.writer = none ∧ s.buff.wantsSend true = true ∧ t = send s := by
  have h := Machine.guarded_eq_some.mp h
  exact ⟨h.1.1, h.1.2, h.2⟩

theorem step_reset (h : step s .reset = some t) :
    ∃ n, s.writer = some n ∧ t = reset s := by
  simp only [step, Option.ite_none_right_eq_some, Option.some.injEq] at h
  obtain ⟨n, hn⟩ := Option.isSome_iff_exists.mp h.1
  exact ⟨n, hn, h.2.symm⟩

/-! ## The invariant -/

/-- What a message on its way into the buffer keeps. -/
def PusherOk (s : State) : Prop :=
  match s.pusher with
  | .idle => True
  | .checked msg => Legal msg ∧ s.buff.nLast + dataLength msg ≤ s.buff.nSize
  | .copied msg dst => Legal msg ∧ s.buff.nLast + dataLength msg ≤ s.buff.nSize ∧ 0 ≤ dst ∧
      (s.buff.pBuff.drop dst.toNat).take (dataLength msg).toNat = message msg

/-- What holds in every run. -/
structure Inv (s : State) : Prop where
  valid : s.buff.Valid
  sent_le : s.sent ≤ s.buff.content.length
  pusher : PusherOk s

theorem length_message (h : Legal msg) : ((message msg).length : ℤ) = dataLength msg := by
  have hnonneg := h.1
  have hle := h.2
  rw [message, List.length_take]
  omega

/-- What the copy reads is the message. -/
theorem read_message (h : Legal msg) :
    Block.read msg 0 (dataLength msg) = some (message msg) := by
  rw [Block.read_eq_some le_rfl h.1 (by have := h.2; omega)]
  rfl

/-- **A copy stays in the buffer**, in every state a run reaches. -/
theorem Inv.copy_defined (h : Inv s) (hpusher : s.pusher = .checked msg) :
    ∃ t, step s .copy = some t := by
  have hok := h.pusher
  rw [PusherOk, hpusher] at hok
  obtain ⟨hlegal, hroom⟩ := hok
  have hlen := h.valid.length_pBuff
  have hmessage := length_message hlegal
  obtain ⟨mem, hmem⟩ : ∃ mem, Block.write s.buff.pBuff s.buff.nLast (message msg) = some mem :=
    ⟨_, Block.write_eq_some h.valid.nLast_nonneg (by omega)⟩
  have hcopy : step s .copy = copy s msg := by rw [step, hpusher]
  refine ⟨{ s with buff := { s.buff with pBuff := mem }, pusher := .copied msg s.buff.nLast }, ?_⟩
  rw [hcopy, copy, read_message hlegal, Option.bind_eq_bind, Option.bind_some, hmem]
  rfl

/-- What is in front of `_nLast` behind an addition. -/
theorem content_update (hnonneg : 0 ≤ s.buff.nLast) (hlegal : Legal msg) :
    (update s msg).buff.content = s.buff.content ++ s.behind msg := by
  have hpos := hlegal.1
  show s.buff.pBuff.take (s.buff.nLast + dataLength msg).toNat = _
  rw [Int.toNat_add hnonneg hpos, List.take_add]
  rfl

theorem content_reset : (reset s).buff.content = [] := by
  show s.buff.pBuff.take (0 : ℤ).toNat = []
  rw [Int.toNat_zero, List.take_zero]

theorem Inv.next (h : Inv s) (hstep : step s i = some t) : Inv t := by
  have hvalid := h.valid
  have hnonneg := hvalid.nLast_nonneg
  have hlast := hvalid.nLast_le
  have hmax := hvalid.nSize_le
  have hlength := hvalid.length_pBuff
  cases i with
  | check msg =>
    obtain ⟨-, hlegal, ⟨hroom, rfl⟩ | rfl⟩ := step_check hstep
    · exact ⟨hvalid, h.sent_le, hlegal, hroom⟩
    · exact ⟨⟨hlength, hnonneg, hlast, hmax⟩, h.sent_le, h.pusher⟩
  | copy =>
    obtain ⟨msg, bytes, mem, hpusher, hread, hwrite, rfl⟩ := step_copy hstep
    have hok := h.pusher
    rw [PusherOk, hpusher] at hok
    obtain ⟨hlegal, hroom⟩ := hok
    obtain rfl := Option.some.inj ((read_message hlegal).symm.trans hread)
    have hsame := (Block.write_spec hwrite).1
    have hcopied := Block.read_write hwrite
    have hmessage : (message msg).length = (dataLength msg).toNat := by
      have := length_message hlegal
      omega
    rw [hmessage] at hcopied
    refine ⟨⟨by rw [← hlength, ← hsame], hnonneg, hlast, hmax⟩, ?_, hlegal, hroom, hnonneg,
      hcopied⟩
    show s.sent ≤ (mem.take s.buff.nLast.toNat).length
    rw [Block.take_write hwrite]
    exact h.sent_le
  | update =>
    obtain ⟨msg, dst, hpusher, rfl⟩ := step_update hstep
    have hok := h.pusher
    rw [PusherOk, hpusher] at hok
    obtain ⟨hlegal, hroom, -⟩ := hok
    have hpos := hlegal.1
    refine ⟨⟨hlength, ?_, hroom, hmax⟩, ?_, trivial⟩
    · show 0 ≤ s.buff.nLast + dataLength msg
      omega
    · rw [content_update hnonneg hlegal, List.length_append]
      exact Nat.le_add_right_of_le h.sent_le
  | send =>
    obtain ⟨-, -, rfl⟩ := step_send hstep
    refine ⟨hvalid, ?_, h.pusher⟩
    show s.buff.nLast.toNat ≤ s.buff.content.length
    have := hvalid.length_content
    omega
  | reset =>
    obtain ⟨n, -, rfl⟩ := step_reset hstep
    refine ⟨⟨hlength, le_refl _, hnonneg.trans hlast, hmax⟩, Nat.zero_le _, ?_⟩
    -- a reset only makes room
    have hok := h.pusher
    unfold PusherOk at hok ⊢
    cases hpusher : s.pusher with
    | idle => simp [reset, hpusher]
    | checked msg =>
      rw [hpusher] at hok
      simp only [reset, hpusher]
      exact ⟨hok.1, by have := hok.2; omega⟩
    | copied msg dst =>
      rw [hpusher] at hok
      simp only [reset, hpusher]
      exact ⟨hok.1, by have := hok.2.1; omega, hok.2.2⟩

/-! ## The law -/

/-- An addition keeps the law exactly when it finds the message behind `_nLast`. -/
theorem law_update_iff (h : Inv s) (hlaw : Law s) (hpusher : s.pusher = .copied msg dst) :
    Law (update s msg) ↔ s.behind msg = message msg := by
  have hok := h.pusher
  rw [PusherOk, hpusher] at hok
  have hcontent := content_update h.valid.nLast_nonneg hok.1
  have hsent : (update s msg).sent = s.sent := rfl
  have hwire : (update s msg).wire = s.wire := rfl
  have haccepted : (update s msg).accepted = s.accepted ++ [message msg] := rfl
  unfold Law at hlaw ⊢
  rw [hcontent, hsent, hwire, haccepted, List.drop_append_of_le_length h.sent_le,
    List.flatten_append, List.flatten_singleton, ← hlaw, List.append_assoc,
    List.append_right_inj, List.append_right_inj]

/-- A reset keeps the law exactly when it finds `_nLast` where `send` found it. -/
theorem law_reset_iff (h : Inv s) (hlaw : Law s) : Law (reset s) ↔ s.buff.nLast = s.sent := by
  have hwire : (reset s).wire = s.wire := rfl
  have haccepted : (reset s).accepted = s.accepted := rfl
  have hlen := h.valid.length_content
  have hle := h.sent_le
  unfold Law at hlaw ⊢
  rw [content_reset, List.drop_nil, List.append_nil, hwire, haccepted, ← hlaw,
    List.self_eq_append_right, List.drop_eq_nil_iff]
  omega

theorem law_send (h : Inv s) (hlaw : Law s) (hwriter : s.writer = none) : Law (send s) := by
  have hsent : s.sent = 0 := by rw [State.sent, hwriter]; rfl
  have hlen := h.valid.length_content
  unfold Law at hlaw ⊢
  rw [hsent, List.drop_zero] at hlaw
  have hwire : (send s).wire = s.wire ++ s.buff.content := rfl
  have hdrop : (send s).buff.content.drop (send s).sent = [] := by
    show s.buff.content.drop s.buff.nLast.toNat = []
    rw [List.drop_eq_nil_iff]
    omega
  rw [hwire, hdrop, List.append_nil, hlaw]
  rfl

/-- **One step.**  From a state that keeps the law, the law holds afterwards exactly when the
step is undisturbed. -/
theorem law_next_iff (h : Inv s) (hlaw : Law s) (hstep : step s i = some t) :
    Law t ↔ Undisturbed s i := by
  cases i with
  | check msg =>
    obtain ⟨-, -, ⟨-, rfl⟩ | rfl⟩ := step_check hstep
    · exact iff_of_true hlaw trivial
    · exact iff_of_true hlaw trivial
  | copy =>
    obtain ⟨msg, bytes, mem, -, -, hwrite, rfl⟩ := step_copy hstep
    refine iff_of_true ?_ trivial
    show s.wire ++ (mem.take s.buff.nLast.toNat).drop s.sent = s.accepted.flatten
    rw [Block.take_write hwrite]
    exact hlaw
  | update =>
    obtain ⟨msg, dst, hpusher, rfl⟩ := step_update hstep
    rw [law_update_iff h hlaw hpusher, Undisturbed, hpusher]
  | send =>
    obtain ⟨hwriter, -, rfl⟩ := step_send hstep
    exact iff_of_true (law_send h hlaw hwriter) trivial
  | reset =>
    obtain ⟨n, -, rfl⟩ := step_reset hstep
    exact law_reset_iff h hlaw

/-- An addition is undisturbed if there was no reset since the copy. -/
theorem undisturbed_update (h : Inv s) (hpusher : s.pusher = .copied msg s.buff.nLast) :
    Undisturbed s .update := by
  have hok := h.pusher
  rw [PusherOk, hpusher] at hok
  rw [Undisturbed, hpusher]
  exact hok.2.2.2

variable {mem : Vector UInt8 sendBuffSize}

theorem inv_init : Inv (sharedBuffer mem).init :=
  ⟨CellBuffer.valid_new mem (by decide), Nat.zero_le _, trivial⟩

theorem content_init : (sharedBuffer mem).init.buff.content = [] := CellBuffer.content_new mem

theorem law_init : Law (sharedBuffer mem).init := by
  show [] ++ (sharedBuffer mem).init.buff.content.drop 0 = []
  rw [content_init]
  rfl

theorem inv_of_reachable (h : (sharedBuffer mem).Reachable s) : Inv s :=
  h.invariant inv_init fun _ _ _ hs hstep => hs.next hstep

theorem law_of_reachWithin (h : (sharedBuffer mem).ReachWithin Undisturbed s) : Law s := by
  have hboth : Inv s ∧ Law s := by
    refine h.invariant (I := fun s => Inv s ∧ Law s) ⟨inv_init, law_init⟩ ?_
    rintro s i t ⟨hinv, hlaw⟩ hok hstep
    exact ⟨hinv.next hstep, (law_next_iff hinv hlaw hstep).mpr hok⟩
  exact hboth.2

theorem undisturbed_reset (h : s.buff.nLast = s.sent) : Undisturbed s .reset := h

/-! ## Whole calls -/

theorem undisturbed_check : Undisturbed s (.check msg) := trivial

theorem undisturbed_copy : Undisturbed s .copy := trivial

theorem undisturbed_send : Undisturbed s .send := trivial

/-- A `push` up to its addition. -/
theorem exists_copied (hs : (sharedBuffer mem).ReachWithin Undisturbed s)
    (hidle : s.pusher = .idle) (hlegal : Legal msg)
    (hroom : s.buff.nLast + dataLength msg ≤ s.buff.nSize) :
    ∃ block, Block.write s.buff.pBuff s.buff.nLast (message msg) = some block ∧
      (sharedBuffer mem).ReachWithin Undisturbed
        { s with buff := { s.buff with pBuff := block }, pusher := .copied msg s.buff.nLast } := by
  have hinv := inv_of_reachable hs.reachable
  -- the test
  have hcheck : step s (.check msg) = some { s with pusher := .checked msg } := by
    rw [step, if_pos ⟨hidle, hlegal⟩, check, if_pos hroom]
  have hchecked := hs.step undisturbed_check hcheck
  -- the copy
  obtain ⟨t, ht⟩ := (hinv.next hcheck).copy_defined rfl
  have hcopied := hchecked.step undisturbed_copy ht
  obtain ⟨msg', bytes, block, hpusher, hread, hwrite, rfl⟩ := step_copy ht
  obtain rfl := Pusher.checked.inj hpusher
  obtain rfl := Option.some.inj ((read_message hlegal).symm.trans hread)
  exact ⟨block, hwrite, hcopied⟩

/-- **A `push` with nothing in between** is the `push` of the buffer, and undisturbed. -/
theorem exists_push (hs : (sharedBuffer mem).ReachWithin Undisturbed s) (hidle : s.pusher = .idle)
    (hlegal : Legal msg) (hroom : s.buff.nLast + dataLength msg ≤ s.buff.nSize) :
    ∃ b, s.buff.push (some msg) (dataLength msg) = some ⟨true, b, [.read, .release]⟩ ∧
      (sharedBuffer mem).ReachWithin Undisturbed
        { s with buff := b, accepted := s.accepted ++ [message msg] } := by
  have hinv := inv_of_reachable hs.reachable
  obtain ⟨block, hwrite, hcopied⟩ := exists_copied hs hidle hlegal hroom
  have hok := undisturbed_update (inv_of_reachable hcopied.reachable) rfl
  have hupdated := hcopied.step hok rfl
  refine ⟨(update { s with buff := { s.buff with pBuff := block } } msg).buff, ?_, ?_⟩
  · have hmax : ¬ intMax < s.buff.nLast + dataLength msg :=
      not_lt.mpr (hroom.trans hinv.valid.nSize_le)
    dsimp only [CellBuffer.push]
    rw [if_neg hmax, if_pos hroom, read_message hlegal]
    dsimp only [bind, Option.bind]
    rw [hwrite]
    rfl
  · simpa only [update, hidle] using hupdated

theorem step_reset_eq {n : ℕ} (hwriter : s.writer = some n) :
    (sharedBuffer mem).step s .reset = some (reset s) := by
  show (if s.writer.isSome then some (reset s) else none) = _
  rw [if_pos (by rw [hwriter]; rfl)]

/-! ## Runs -/

/-- **The law of the shared send buffer, and when it holds.**  In a run in which every addition
finds the message where `_nLast` points, and every reset finds `_nLast` where `send` found it,
the bytes on the wire and those in the buffer are the accepted messages, each once and in order.
A step of any other kind breaks the law. -/
theorem shared_buffer_law (mem : Vector UInt8 sendBuffSize) :
    (∀ s, (sharedBuffer mem).ReachWithin Undisturbed s → Law s) ∧
      ∀ s i t, (sharedBuffer mem).ReachWithin Undisturbed s → step s i = some t →
        (Law t ↔ Undisturbed s i) :=
  ⟨fun _ hs => law_of_reachWithin hs, fun _ _ _ hs hstep =>
    law_next_iff (inv_of_reachable hs.reachable) (law_of_reachWithin hs) hstep⟩

/-- What is in the buffer after such a `push`. -/
theorem buff_of_push {b : CellBuffer} (hs : s.buff.Valid) (hlegal : Legal msg)
    (hroom : s.buff.nLast + dataLength msg ≤ s.buff.nSize)
    (hpush : s.buff.push (some msg) (dataLength msg) = some ⟨true, b, [.read, .release]⟩) :
    b.content = s.buff.content ++ message msg ∧ b.nLast = s.buff.nLast + dataLength msg ∧
      b.nSize = s.buff.nSize := by
  obtain ⟨b', hb', hvalid, hcontent, hsize⟩ := hs.push_of_fits hlegal.1 hlegal.2 hroom
  obtain rfl : b = b' := congrArg PushResult.buff (Option.some.inj (hpush.symm.trans hb'))
  refine ⟨hcontent, ?_, hsize⟩
  rw [← hvalid.length_content, hcontent, List.length_append, Nat.cast_add, hs.length_content]
  exact congrArg _ (length_message hlegal)

/-- A message of four bytes is pushed on a new connection, and sent. -/
theorem exists_sent : ∃ s, (sharedBuffer (.replicate _ 0)).ReachWithin Undisturbed s ∧
    s.pusher = .idle ∧ s.writer = some 4 ∧ s.wire = [4, 0, 1, 1] ∧
      s.accepted = [[4, 0, 1, 1]] ∧ s.buff.content = [4, 0, 1, 1] ∧ s.buff.nLast = 4 ∧
        s.buff.nSize = 10240 := by
  have hlegal : Legal [4, 0, 1, 1] := by decide
  have hroom : (sharedBuffer (.replicate _ 0)).init.buff.nLast + dataLength [4, 0, 1, 1] ≤
      (sharedBuffer (.replicate _ 0)).init.buff.nSize := by
    show (0 : ℤ) + dataLength [4, 0, 1, 1] ≤ (sendBuffSize : ℤ)
    decide
  obtain ⟨b, hpush, hreach⟩ := exists_push .init rfl hlegal hroom
  obtain ⟨hcontent, hlast, hsize⟩ := buff_of_push inv_init.valid hlegal hroom hpush
  have hwants : b.wantsSend true = true := by
    rw [CellBuffer.wantsSend, hlast]
    rfl
  rw [content_init, List.nil_append] at hcontent
  refine ⟨_, hreach.step undisturbed_send (if_pos ⟨rfl, hwants⟩), rfl, ?_, ?_, rfl, hcontent, hlast,
    hsize⟩
  · show some b.nLast.toNat = some 4
    rw [hlast]
    rfl
  · show [] ++ b.content = _
    rw [hcontent]
    rfl

/-- A message is pushed and sent. -/
theorem shared_buffer_law_sent :
    ∃ s, (sharedBuffer (.replicate _ 0)).ReachWithin Undisturbed s ∧
      s.wire = [4, 0, 1, 1] ∧ s.accepted = [[4, 0, 1, 1]] ∧ Law s := by
  obtain ⟨s, hs, -, -, hwire, haccepted, -⟩ := exists_sent
  exact ⟨s, hs, hwire, haccepted, (shared_buffer_law (.replicate _ 0)).1 s hs⟩

/-- The second message, pushed while the first is sent. -/
theorem legal_second : Legal [4, 0, 2, 2] := by decide

/-- The `push` of the second message is complete before the reset: it is dropped. -/
theorem exists_dropped : ∃ s, (sharedBuffer (.replicate _ 0)).Reachable s ∧ ¬ Law s ∧
    s.accepted = [[4, 0, 1, 1], [4, 0, 2, 2]] ∧ s.wire = [4, 0, 1, 1] ∧ s.buff.content = [] := by
  obtain ⟨s, hs, hidle, hwriter, hwire, haccepted, -, hlast, hsize⟩ := exists_sent
  have hroom : s.buff.nLast + dataLength [4, 0, 2, 2] ≤ s.buff.nSize := by
    rw [hlast, hsize]
    decide
  obtain ⟨b, hpush, hpushed⟩ := exists_push hs hidle legal_second hroom
  obtain ⟨-, hb, -⟩ :=
    buff_of_push (inv_of_reachable hs.reachable).valid legal_second hroom hpush
  have hinv := inv_of_reachable hpushed.reachable
  refine ⟨_, hpushed.reachable.step trivial (step_reset_eq hwriter), fun hlaw => ?_, ?_, hwire,
    content_reset⟩
  · have heq := (law_reset_iff hinv (law_of_reachWithin hpushed)).mp hlaw
    simp only [State.sent, hwriter, hb, hlast] at heq
    exact absurd heq (by decide)
  · show s.accepted ++ [message [4, 0, 2, 2]] = _
    rw [haccepted]
    rfl

/-- The reset falls behind the copy of the second message: the first is in its place. -/
theorem exists_resent : ∃ s, (sharedBuffer (.replicate _ 0)).Reachable s ∧ ¬ Law s ∧
    s.accepted = [[4, 0, 1, 1], [4, 0, 2, 2]] ∧ s.wire = [4, 0, 1, 1] ∧
      s.buff.content = [4, 0, 1, 1] := by
  obtain ⟨s, hs, hidle, hwriter, hwire, haccepted, hcontent, hlast, hsize⟩ := exists_sent
  have hroom : s.buff.nLast + dataLength [4, 0, 2, 2] ≤ s.buff.nSize := by
    rw [hlast, hsize]
    decide
  obtain ⟨block, hwrite, hcopied⟩ := exists_copied hs hidle legal_second hroom
  have hsent : s.sent = 4 := by
    rw [State.sent, hwriter]
    rfl
  have hok : s.buff.nLast = s.sent := by
    rw [hlast, hsent]
    rfl
  have hreset := hcopied.step (undisturbed_reset hok) (step_reset_eq hwriter)
  have hinv := inv_of_reachable hreset.reachable
  have hbehind : (block.drop 0).take 4 = [4, 0, 1, 1] := by
    have htake := (Block.take_write hwrite).trans hcontent
    rw [hlast] at htake
    exact htake
  refine ⟨_, hreset.reachable.step (i := .update) trivial rfl, fun hlaw => ?_, ?_, hwire, ?_⟩
  · have heq := (law_update_iff hinv (law_of_reachWithin hreset) rfl).mp hlaw
    exact absurd (hbehind.symm.trans heq) (by decide)
  · show s.accepted ++ [message [4, 0, 2, 2]] = _
    rw [haccepted]
    rfl
  · rw [content_update hinv.valid.nLast_nonneg legal_second, content_reset, List.nil_append]
    exact hbehind

/-- While a message is sent another is pushed.  Either its `push` is complete before the reset,
and it is dropped; or the reset falls behind its copy, and the first message is in its place. -/
theorem message_lost_between_threads :
    (∃ s, (sharedBuffer (.replicate _ 0)).Reachable s ∧ ¬ Law s ∧
      s.accepted = [[4, 0, 1, 1], [4, 0, 2, 2]] ∧ s.wire = [4, 0, 1, 1] ∧
      s.buff.content = []) ∧
    ∃ s, (sharedBuffer (.replicate _ 0)).Reachable s ∧ ¬ Law s ∧
      s.accepted = [[4, 0, 1, 1], [4, 0, 2, 2]] ∧ s.wire = [4, 0, 1, 1] ∧
      s.buff.content = [4, 0, 1, 1] := ⟨exists_dropped, exists_resent⟩

end SharedBuffer
end EasyTcpServer
