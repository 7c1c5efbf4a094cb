import EasyTcpServer.Buffer.CellClient
import EasyTcpServer.Lib.Machine

/-!
# The outgoing stream of a `Cell_Buffer`

A send buffer is filled by `push` and emptied by `Write_to_Socket`.  The machine below
takes the two calls as atomic and lets them come in any order; its labels carry what
`push` is given and what `send` reports.  The bytes that went on the wire and the messages
for which `push` said yes are recorded.

The law one expects is conservation: the bytes on the wire followed by the bytes in the
buffer are the accepted messages, one after the other.  `Write_to_Socket` does not keep
it.  It sets `_nLast` to zero whatever `send` has reported, so the part of the buffer that
a short `send` leaves behind is dropped, and what the peer sees from then on does not
start at a message (`short_send_loses_bytes`).

`outgoing_stream_law` says that nothing else goes wrong: the law holds as long as every
`send` takes the whole buffer and no `push` counts past `INT_MAX`, and the first call that
does otherwise breaks it.
-/

namespace EasyTcpServer

namespace SendStream

/-- How the connection stands. -/
inductive Status where
  | established
  /-- A `send` has failed; the caller removes the client. -/
  | closed
  /-- A call had no defined result. -/
  | undefined
  deriving DecidableEq, Repr

/-- A send buffer with the record of what became of it. -/
structure State where
  status : Status
  buff : CellBuffer
  /-- The bytes `send` has put on the wire. -/
  wire : List UInt8
  /-- The messages for which `push` returned true. -/
  accepted : List (List UInt8)

/-- The calls. -/
inductive Act where
  /-- `push(pData, nLen)`. -/
  | push (pData : List UInt8) (nLen : ℤ)
  /-- `Write_to_Socket`, where `send` reports `r`. -/
  | write (r : ℤ)

/-- What `push` may be called with: a pointer to at least `nLen` bytes. -/
def Act.Legal (b : CellBuffer) : Act → Prop
  | .push pData nLen => 0 ≤ nLen ∧ nLen ≤ pData.length
  | .write r => if b.wantsSend true then r = socketError ∨ 0 ≤ r ∧ r ≤ b.nLast else r = 0

instance (b : CellBuffer) (i : Act) : Decidable (i.Legal b) := by
  cases i <;> unfold Act.Legal <;> infer_instance

/-- A call of `push`. -/
def push (s : State) (pData : List UInt8) (nLen : ℤ) : State :=
  match s.buff.push (some pData) nLen with
  | none => { s with status := .undefined }
  | some r =>
    { s with
      buff := r.buff
      accepted := if r.ret then s.accepted ++ [pData.take nLen.toNat] else s.accepted }

/-- A call of `Write_to_Socket`: `send` puts the first `r` bytes of the buffer on the
wire. -/
def write (s : State) (r : ℤ) : State :=
  let out := s.buff.writeToSocket true r
  { s with
    status := if out.1 = socketError then .closed else s.status
    buff := out.2
    wire := s.wire ++ s.buff.sendRange.take out.1.toNat }

/-- What the state is after a call. -/
def next (s : State) : Act → State
  | .push pData nLen => push s pData nLen
  | .write r => write s r

end SendStream

open SendStream (Status)

/-- The send buffer of a connection on a valid socket. -/
def sendStream {nSize : ℕ} (mem : Vector UInt8 nSize) :
    Machine SendStream.State SendStream.Act where
  init := ⟨.established, .new mem, [], []⟩
  step s i := if s.status = .established ∧ i.Legal s.buff then some (SendStream.next s i) else none

namespace SendStream

/-- The outgoing stream law.  On a connection that was given up the buffer is gone, and
what is left of the law is that the peer has seen a part of the stream from its start. -/
def State.Law (s : State) : Prop :=
  match s.status with
  | .established => s.wire ++ s.buff.content = s.accepted.flatten
  | .closed => s.wire <+: s.accepted.flatten
  | .undefined => False

/-- The calls after which the law still holds: a `push` that does not count past
`INT_MAX`, a `send` that takes the whole buffer or fails. -/
def Whole (s : State) : Act → Prop
  | .push _ nLen => s.buff.nLast + nLen ≤ intMax
  | .write r => r = socketError ∨ r = s.buff.nLast

variable {s t : State}

theorem State.Law.prefix (h : s.Law) : s.wire <+: s.accepted.flatten := by
  unfold State.Law at h
  split at h
  · exact ⟨_, h⟩
  · exact h
  · exact h.elim

/-- **A push keeps the law** if it does not count past `INT_MAX`; otherwise its result is
not defined. -/
theorem law_push_iff (hvalid : s.buff.Valid) (hstatus : s.status = .established)
    (hlaw : s.wire ++ s.buff.content = s.accepted.flatten) {pData : List UInt8} {nLen : ℤ}
    (hlegal : (Act.push pData nLen).Legal s.buff) :
    (push s pData nLen).Law ↔ s.buff.nLast + nLen ≤ intMax := by
  rcases lt_or_ge intMax (s.buff.nLast + nLen) with hover | hmax
  · have hpush : push s pData nLen = { s with status := .undefined } := by
      simp [push, CellBuffer.push_of_overflow hover]
    rw [hpush]
    exact ⟨False.elim, fun hle => absurd hle (not_le.mpr hover)⟩
  refine iff_of_true ?_ hmax
  by_cases hfits : s.buff.nLast + nLen ≤ s.buff.nSize
  · obtain ⟨b, hb, -, hcontent, -⟩ := hvalid.push_of_fits hlegal.1 hlegal.2 hfits
    simp [push, hb, State.Law, hstatus, hcontent, ← hlaw]
  · simpa [push, CellBuffer.push_of_not_fits hmax hfits, State.Law, hstatus,
      CellBuffer.content] using hlaw

theorem valid_push (hvalid : s.buff.Valid) {pData : List UInt8} {nLen : ℤ}
    (hlegal : (Act.push pData nLen).Legal s.buff) : (push s pData nLen).buff.Valid := by
  rcases lt_or_ge intMax (s.buff.nLast + nLen) with hover | hmax
  · simpa [push, CellBuffer.push_of_overflow hover] using hvalid
  by_cases hfits : s.buff.nLast + nLen ≤ s.buff.nSize
  · obtain ⟨b, hb, hb_valid, -⟩ := hvalid.push_of_fits hlegal.1 hlegal.2 hfits
    simpa [push, hb] using hb_valid
  · simp only [push, CellBuffer.push_of_not_fits hmax hfits]
    exact ⟨hvalid.length_pBuff, hvalid.nLast_nonneg, hvalid.nLast_le, hvalid.nSize_le⟩

/-- What `Write_to_Socket` returns is what `send` has reported. -/
theorem writeToSocket_ret {b : CellBuffer} {r : ℤ} (hlegal : (Act.write r).Legal b) :
    (b.writeToSocket true r).1 = r := by
  unfold Act.Legal at hlegal
  unfold CellBuffer.writeToSocket
  split_ifs at hlegal ⊢ with hwants
  · rfl
  · exact hlegal.symm

/-- **A send keeps the law** exactly when it takes the whole buffer or fails: what it does
not take is dropped. -/
theorem law_write_iff (hvalid : s.buff.Valid) (hstatus : s.status = .established)
    (hlaw : s.wire ++ s.buff.content = s.accepted.flatten) {r : ℤ}
    (hlegal : (Act.write r).Legal s.buff) :
    (write s r).Law ↔ r = socketError ∨ r = s.buff.nLast := by
  have hret := writeToSocket_ret hlegal
  have hempty := (hvalid.writeToSocket_true r).2
  have hlen := hvalid.length_content
  by_cases herror : r = socketError
  · -- nothing of the buffer goes out
    have hwrite : write s r = { s with
        status := .closed
        buff := (s.buff.writeToSocket true r).2 } := by
      rw [write, hret, if_pos herror, herror]
      simp [socketError]
    rw [hwrite]
    exact iff_of_true ⟨_, hlaw⟩ (.inl herror)
  · have hwrite : (write s r).Law ↔ s.buff.content.take r.toNat = s.buff.content := by
      simp only [State.Law, write, hret, if_neg herror, hstatus, hempty, List.append_nil]
      rw [← hlaw]
      exact List.append_right_inj _
    have htake : s.buff.content.take r.toNat = s.buff.content ↔
        s.buff.content.length ≤ r.toNat := by
      refine ⟨fun h => ?_, List.take_of_length_le⟩
      have := congrArg List.length h
      rw [List.length_take] at this
      omega
    rw [hwrite, htake]
    unfold Act.Legal at hlegal
    split_ifs at hlegal with hwants
    · omega
    · -- the buffer is empty, and `send` is not called
      have hnil : s.buff.content = [] := not_not.mp (mt hvalid.wantsSend_iff.mpr hwants)
      rw [hnil] at hlen ⊢
      simp only [List.length_nil, Nat.zero_le, true_iff]
      right
      exact hlegal.trans hlen

/-- **One call.**  From a state that keeps the law, the law holds afterwards exactly when
the call is one of the harmless ones. -/
theorem law_next_iff {i : Act} (hvalid : s.buff.Valid) (hstatus : s.status = .established)
    (hlaw : s.Law) (hlegal : i.Legal s.buff) : (next s i).Law ↔ Whole s i := by
  have hlaw' : s.wire ++ s.buff.content = s.accepted.flatten := by
    simpa [State.Law, hstatus] using hlaw
  cases i with
  | push pData nLen => exact law_push_iff hvalid hstatus hlaw' hlegal
  | write r => exact law_write_iff hvalid hstatus hlaw' hlegal

theorem valid_next {i : Act} (hvalid : s.buff.Valid) (hlegal : i.Legal s.buff) :
    (next s i).buff.Valid := by
  cases i with
  | push pData nLen => exact valid_push hvalid hlegal
  | write r => exact (hvalid.writeToSocket_true r).1

variable {nSize : ℕ} {mem : Vector UInt8 nSize}

theorem step_eq_some {i : Act} :
    (sendStream mem).step s i = some t ↔
      s.status = .established ∧ i.Legal s.buff ∧ t = next s i := by
  simp only [sendStream, Option.ite_none_right_eq_some, Option.some.injEq, and_assoc]
  exact and_congr_right fun _ => and_congr_right fun _ => eq_comm

/-- **Runs of harmless calls.** -/
theorem law_of_reachWithin (h : (nSize : ℤ) ≤ intMax)
    (hs : (sendStream mem).ReachWithin Whole s) : s.buff.Valid ∧ s.Law := by
  refine hs.invariant (I := fun s => s.buff.Valid ∧ s.Law) ?_ ?_
  · exact ⟨CellBuffer.valid_new mem h, CellBuffer.content_new mem⟩
  · rintro s i t ⟨hvalid, hlaw⟩ hwhole hstep
    obtain ⟨hstatus, hlegal, rfl⟩ := step_eq_some.mp hstep
    exact ⟨valid_next hvalid hlegal, (law_next_iff hvalid hstatus hlaw hlegal).mpr hwhole⟩

/-- A message is pushed on a new connection, and `send` takes the first `r` bytes of it. -/
theorem exists_push_write (mem : Vector UInt8 nSize) (h : (nSize : ℤ) ≤ intMax)
    (msg : List UInt8) (hne : msg ≠ []) (hfits : msg.length ≤ nSize) {r : ℤ} (hr : 0 ≤ r)
    (hle : r ≤ msg.length) :
    ∃ s t, (sendStream mem).step (sendStream mem).init (.push msg msg.length) = some s ∧
      s.buff.nLast = msg.length ∧ (sendStream mem).step s (.write r) = some t ∧
      t.status = .established ∧ t.buff.content = [] ∧ t.wire = msg.take r.toNat ∧
      t.accepted = [msg] := by
  have hnew := CellBuffer.valid_new mem h
  have hroom : (CellBuffer.new mem).nLast + (msg.length : ℤ) ≤ (CellBuffer.new mem).nSize := by
    simpa [CellBuffer.new] using hfits
  obtain ⟨b, hb, hvalid, hcontent, -⟩ :=
    hnew.push_of_fits (Int.natCast_nonneg _) (le_refl (msg.length : ℤ)) hroom
  rw [CellBuffer.content_new, List.nil_append, Int.toNat_natCast, List.take_length] at hcontent
  have hlast : b.nLast = msg.length := by rw [← hvalid.length_content, hcontent]
  have hwants : b.wantsSend true = true := hvalid.wantsSend_iff.mpr (hcontent ▸ hne)
  have hlegal : (Act.write r).Legal b := by
    rw [Act.Legal, if_pos hwants, hlast]
    exact .inr ⟨hr, hle⟩
  have hopen : r ≠ socketError := by
    unfold socketError
    omega
  let s : State := ⟨.established, b, [], [msg]⟩
  refine ⟨s, write s r, step_eq_some.mpr ⟨rfl, ⟨by omega, le_rfl⟩, ?_⟩, hlast,
    step_eq_some.mpr ⟨rfl, hlegal, rfl⟩, ?_, (hvalid.writeToSocket_true r).2, ?_, rfl⟩
  · simp [next, push, sendStream, hb, s]
  · simp [write, s, writeToSocket_ret hlegal, hopen]
  · have hrange : b.sendRange = msg := hcontent
    simp [write, s, writeToSocket_ret hlegal, hrange]

/-- **The outgoing stream law, and when it holds.**  In a run in which every `send` takes
the whole buffer or fails, and no `push` counts past `INT_MAX`, every state keeps the law,
and the peer has seen a part of the accepted stream from its start.  A call of any other
kind breaks the law.  A rejected `push` leaves the content of the buffer as it was. -/
theorem outgoing_stream_law (h : (nSize : ℤ) ≤ intMax) (mem : Vector UInt8 nSize) :
    (∀ s, (sendStream mem).ReachWithin Whole s → s.Law ∧ s.wire <+: s.accepted.flatten) ∧
    (∀ s i t, (sendStream mem).ReachWithin Whole s → (sendStream mem).step s i = some t →
      (t.Law ↔ Whole s i)) ∧
    (∀ s pData nLen r, (sendStream mem).Reachable s →
      s.buff.push (some pData) nLen = some r → r.ret = false →
      r.buff.content = s.buff.content) := by
  refine ⟨fun s hs => ?_, fun s i t hs hstep => ?_, fun s pData nLen r _ hpush hret => ?_⟩
  · have hlaw := (law_of_reachWithin h hs).2
    exact ⟨hlaw, hlaw.prefix⟩
  · obtain ⟨hvalid, hlaw⟩ := law_of_reachWithin h hs
    obtain ⟨hstatus, hlegal, rfl⟩ := step_eq_some.mp hstep
    exact law_next_iff hvalid hstatus hlaw hlegal
  · exact CellBuffer.content_of_push_eq_false hpush hret

/-- One message of four bytes is pushed and sent whole: the run keeps the law. -/
theorem outgoing_stream_law_whole_send :
    ∃ t, (sendStream (.replicate sendBuffSize 0)).Reachable t ∧ t.accepted = [[4, 0, 1, 1]] ∧
      t.wire = [4, 0, 1, 1] ∧ t.Law := by
  obtain ⟨s, t, hpush, hlast, hwrite, -, -, hwire, haccepted⟩ :=
    exists_push_write (.replicate sendBuffSize 0) (by decide) [4, 0, 1, 1]
      (by decide) (by decide) (r := 4) (by decide) (by decide)
  have hmax : Whole (sendStream (.replicate sendBuffSize 0)).init (.push [4, 0, 1, 1] 4) :=
    show (0 : ℤ) + 4 ≤ intMax by decide
  have hall : Whole s (.write 4) := .inr hlast.symm
  have ht := Machine.ReachWithin.step (.step .init hmax hpush) hall hwrite
  have hlaw := (outgoing_stream_law (by decide) (.replicate sendBuffSize 0)).1 t ht
  exact ⟨t, ht.reachable, haccepted, hwire, hlaw.1⟩

/-- A `send` that takes two of four bytes: the other two are on no list any more. -/
theorem short_send_loses_bytes :
    ∃ t, (sendStream (.replicate sendBuffSize 0)).Reachable t ∧ t.status = .established ∧
      t.accepted = [[4, 0, 1, 1]] ∧ t.wire = [4, 0] ∧ t.buff.content = [] ∧ ¬ t.Law := by
  obtain ⟨s, t, hpush, -, hwrite, hstatus, hcontent, hwire, haccepted⟩ :=
    exists_push_write (.replicate sendBuffSize 0) (by decide) [4, 0, 1, 1]
      (by decide) (by decide) (r := 2) (by decide) (by decide)
  refine ⟨t, (Machine.Reachable.next .init hpush).next hwrite, hstatus, haccepted, hwire,
    hcontent, ?_⟩
  simp only [State.Law, hstatus, hcontent, haccepted, hwire]
  decide

end SendStream
end EasyTcpServer
