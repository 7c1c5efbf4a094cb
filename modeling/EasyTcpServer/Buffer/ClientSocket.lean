import EasyTcpServer.Buffer.CellClient
import EasyTcpServer.Lib.Machine
import Mathlib.Data.Int.Order.Basic
import Mathlib.Data.List.Induction

/-!
# `Client_socket::sendData`

The server of `Server.h` collects what it sends to a client in `_szSendBuf`.  A message that
reaches the end of the buffer is to be cut: the front fills the buffer, the buffer is sent, and
the rest goes to the front of the emptied buffer.

Two slips keep that from working.  `nSendLen -= nSendLen` leaves no rest, whatever the front
was, so the bytes behind the end of the buffer are never copied.  And the `ret` that is
returned in the end is the one declared in front of the loop, which nothing has assigned: the
result of `send` is kept in a second `ret` inside.

* `sendLoop`, `sendData`: the function, over the results that `send` reports.
* `Fits`: a message that ends inside the buffer or at its end.
* `stream_law`: the bytes of the stream are kept as long as every message fits, and the first
  that does not breaks it; what is returned is `SOCKET_ERROR` in every case.
-/

namespace EasyTcpServer

structure ClientSocket where
  szSendBuf : List UInt8
  lastSendPos : ℤ
  deriving DecidableEq, Repr

/-- The result of `sendData`: what it returns, the client, and the bytes it put on the wire. -/
structure SendResult where
  ret : ℤ
  socket : ClientSocket
  wire : List UInt8
  deriving DecidableEq, Repr

namespace ClientSocket

/-- `SEND_BUFF_SIZE` of `Server.h`. -/
def sendBufSize : ℕ := 10240 * 5

theorem sendBufSize_pos : (0 : ℤ) < sendBufSize := by decide

/-- The client as it is constructed. -/
def new : ClientSocket := ⟨List.replicate sendBufSize 0, 0⟩

/-- The loop of `sendData`: the outer `ret`, what the calls of `send` report, the client,
`pSendData` as the bytes from there on, and `nSendLen`.  It has no result when there is one
more call of `send`, or when a copy leaves the message or the buffer. -/
def sendLoop (ret : ℤ) : List ℤ → ClientSocket → List UInt8 → ℤ → Option SendResult
  | sends, c, pSendData, nSendLen =>
    if sendBufSize ≤ c.lastSendPos + nSendLen then
      let nCopyLen := sendBufSize - c.lastSendPos
      (Block.read pSendData 0 nCopyLen).bind fun bytes =>
        (Block.write c.szSendBuf c.lastSendPos bytes).bind fun mem =>
          let pSendData := pSendData.drop nCopyLen.toNat
          let nSendLen := nSendLen - nSendLen
          match sends with
          | [] => none
          | sent :: sends =>
            if sent = socketError then some ⟨sent, ⟨mem, 0⟩, []⟩
            else
              (sendLoop ret sends ⟨mem, 0⟩ pSendData nSendLen).map fun r =>
                { r with wire := mem.take sent.toNat ++ r.wire }
    else
      (Block.read pSendData 0 nSendLen).bind fun bytes =>
        (Block.write c.szSendBuf c.lastSendPos bytes).map fun mem =>
          ⟨ret, ⟨mem, c.lastSendPos + nSendLen⟩, []⟩

/-- `sendData(data_header)` for a pointer to the bytes `msg`. -/
def sendData (c : ClientSocket) (msg : List UInt8) (sends : List ℤ) : Option SendResult :=
  sendLoop socketError sends c msg (dataLength msg)

/-! ## One call -/

/-- The position lies in the buffer, and there is room. -/
structure Valid (c : ClientSocket) : Prop where
  length_szSendBuf : c.szSendBuf.length = sendBufSize
  lastSendPos_nonneg : 0 ≤ c.lastSendPos
  lastSendPos_lt : c.lastSendPos < sendBufSize

/-- The bytes in front of the position. -/
def content (c : ClientSocket) : List UInt8 := c.szSendBuf.take c.lastSendPos.toNat

/-- What may be passed to `sendData`: a pointer to as many bytes as its header says, at least
one. -/
def Legal (msg : List UInt8) : Prop := 1 ≤ dataLength msg ∧ dataLength msg ≤ msg.length

instance (msg : List UInt8) : Decidable (Legal msg) := by
  unfold Legal
  infer_instance

/-- The bytes of the message at a pointer. -/
def message (msg : List UInt8) : List UInt8 := msg.take (dataLength msg).toNat

theorem valid_new : new.Valid := ⟨List.length_replicate, le_refl _, sendBufSize_pos⟩

@[simp] theorem content_new : new.content = [] := rfl

theorem Legal.length_message {msg : List UInt8} (h : Legal msg) :
    ((message msg).length : ℤ) = dataLength msg := by
  obtain ⟨hpos, hle⟩ := h
  rw [message, List.length_take]
  omega

variable {c : ClientSocket} {msg : List UInt8}

theorem Valid.length_content (h : c.Valid) : (c.content.length : ℤ) = c.lastSendPos := by
  have hlen := h.length_szSendBuf
  have hnonneg := h.lastSendPos_nonneg
  have hlt := h.lastSendPos_lt
  rw [content, List.length_take]
  omega

variable (msg) in
/-- Copying `n` bytes of the message behind the position. -/
theorem Valid.copy (h : c.Valid) {n : ℤ} (hn : 0 ≤ n) (hmsg : n ≤ msg.length)
    (hroom : c.lastSendPos + n ≤ sendBufSize) :
    ∃ mem, Block.read msg 0 n = some (msg.take n.toNat) ∧
      Block.write c.szSendBuf c.lastSendPos (msg.take n.toNat) = some mem ∧
      mem.length = sendBufSize ∧
      mem.take (c.lastSendPos + n).toNat = c.content ++ msg.take n.toNat := by
  have hlen := h.length_szSendBuf
  have hnonneg := h.lastSendPos_nonneg
  have hread : Block.read msg 0 n = some (msg.take n.toNat) := by
    have hdrop : Block.read msg 0 n = some ((msg.drop (0 : ℤ).toNat).take n.toNat) :=
      Block.read_eq_some (le_refl 0) hn (by omega)
    simpa using hdrop
  have htake : (msg.take n.toNat).length = n.toNat := by
    rw [List.length_take]
    omega
  obtain ⟨mem, hwrite⟩ : ∃ mem, Block.write c.szSendBuf c.lastSendPos (msg.take n.toNat) =
      some mem := ⟨_, Block.write_eq_some hnonneg (by omega)⟩
  obtain ⟨hlength, hfront⟩ := Block.write_spec hwrite
  refine ⟨mem, hread, hwrite, hlength.trans hlen, ?_⟩
  rw [content, ← hfront, htake]
  congr 1
  omega

variable (msg) in
/-- The turn of the loop that collects what is left: it does not reach the end of the buffer. -/
theorem Valid.sendLoop_of_lt (h : c.Valid) {n : ℤ} (hn : 0 ≤ n) (hmsg : n ≤ msg.length)
    (hlt : c.lastSendPos + n < sendBufSize) (ret : ℤ) (sends : List ℤ) :
    ∃ c', sendLoop ret sends c msg n = some ⟨ret, c', []⟩ ∧ c'.Valid ∧
      c'.content = c.content ++ msg.take n.toNat := by
  obtain ⟨mem, hread, hwrite, hlength, htake⟩ := h.copy msg hn hmsg hlt.le
  refine ⟨⟨mem, c.lastSendPos + n⟩, ?_, ⟨hlength, ?_, hlt⟩, htake⟩
  · rw [sendLoop, if_neg (not_le.mpr hlt), hread, Option.bind_some, hwrite, Option.map_some]
  · exact add_nonneg h.lastSendPos_nonneg hn

/-- A message that reaches the end of the buffer fills it.  The buffer is sent, and nothing of
the message is left to copy. -/
theorem Valid.sendData_of_ge (h : c.Valid) (hlegal : Legal msg)
    (hge : sendBufSize ≤ c.lastSendPos + dataLength msg) :
    ∃ c', c.sendData msg [sendBufSize] = some ⟨socketError, c',
        c.content ++ msg.take (sendBufSize - c.lastSendPos).toNat⟩ ∧
      c'.Valid ∧ c'.content = [] := by
  have hlt := h.lastSendPos_lt
  have hle := hlegal.2
  obtain ⟨mem, hread, hwrite, hlength, htake⟩ :=
    h.copy msg (n := sendBufSize - c.lastSendPos) (by omega) (by omega) (by omega)
  have hfull : mem.take (sendBufSize : ℤ).toNat =
      c.content ++ msg.take (sendBufSize - c.lastSendPos).toNat := by
    rw [← htake]
    congr 1
    omega
  -- the second turn of the loop, with `nSendLen` zero
  have hempty : (⟨mem, 0⟩ : ClientSocket).Valid := ⟨hlength, le_refl 0, sendBufSize_pos⟩
  obtain ⟨c', hrest, hvalid, hc'⟩ := hempty.sendLoop_of_lt
    (msg.drop (sendBufSize - c.lastSendPos).toNat) (le_refl 0) (Int.natCast_nonneg _)
    sendBufSize_pos socketError []
  refine ⟨c', ?_, hvalid, by rw [hc']; rfl⟩
  rw [sendData, sendLoop, if_pos hge]
  dsimp only
  rw [hread, Option.bind_some, hwrite, Option.bind_some, if_neg (by decide), sub_self, hrest,
    Option.map_some, hfull, List.append_nil]

/-- **One call of `sendData`.**  Of the message the bytes up to the end of the buffer go into
the stream, and `SOCKET_ERROR` is returned. -/
theorem Valid.sendData (h : c.Valid) (hlegal : Legal msg) :
    ∃ r, c.sendData msg [sendBufSize] = some r ∧ r.ret = socketError ∧ r.socket.Valid ∧
      sendBufSize ∣ r.wire.length ∧
      r.wire ++ r.socket.content =
        c.content ++ (message msg).take (sendBufSize - c.lastSendPos).toNat := by
  have hcontent := h.length_content
  have hmessage := hlegal.length_message
  have hpos := h.lastSendPos_lt
  rcases lt_or_ge (c.lastSendPos + dataLength msg) sendBufSize with hlt | hge
  · obtain ⟨c', hsend, hvalid, hc'⟩ :=
      h.sendLoop_of_lt msg (by have := hlegal.1; omega) hlegal.2 hlt socketError [sendBufSize]
    refine ⟨_, hsend, rfl, hvalid, Nat.dvd_zero _, ?_⟩
    rw [List.nil_append, hc', List.take_of_length_le (l := message msg) (by omega)]
    rfl
  · obtain ⟨c', hsend, hvalid, hc'⟩ := h.sendData_of_ge hlegal hge
    have htake : (message msg).take (sendBufSize - c.lastSendPos).toNat =
        msg.take (sendBufSize - c.lastSendPos).toNat := by
      rw [message, List.take_take, Nat.min_eq_left (by omega)]
    refine ⟨_, hsend, rfl, hvalid, ?_, ?_⟩
    · rw [← htake, List.length_append, List.length_take]
      exact ⟨1, by omega⟩
    · rw [hc', List.append_nil, htake]

/-! ## The outgoing stream -/

/-- A client with the record of what became of it. -/
structure Stream where
  socket : ClientSocket
  /-- The bytes `send` has put on the wire. -/
  wire : List UInt8
  /-- The messages passed to `sendData`. -/
  passed : List (List UInt8)
  /-- What the last call of `sendData` returned. -/
  ret : Option ℤ

/-- The calls of `sendData`, one after the other, where every call of `send` takes the whole
buffer. -/
def stream : Machine Stream (List UInt8) where
  init := ⟨new, [], [], none⟩
  step s msg :=
    if Legal msg then
      (s.socket.sendData msg [sendBufSize]).map fun r =>
        ⟨r.socket, s.wire ++ r.wire, s.passed ++ [message msg], some r.ret⟩
    else none

namespace Stream

variable {s t : Stream}

/-- The bytes sent and the bytes collected are the messages in order. -/
def Law (s : Stream) : Prop := s.wire ++ s.socket.content = s.passed.flatten

/-- What holds of every client: `send` is called for whole buffers only, and no call has
reported success. -/
structure Good (s : Stream) : Prop where
  valid : s.socket.Valid
  wire : sendBufSize ∣ s.wire.length
  ret : ∀ ret ∈ s.ret, ret = socketError

theorem good_init : stream.init.Good :=
  ⟨valid_new, Nat.dvd_zero _, fun _ h => absurd h (Option.not_mem_none _)⟩

/-- A call is always possible.  The law, if it held before, holds behind it exactly when the
message ends inside the buffer or at its end. -/
theorem Good.step (h : s.Good) (hlegal : Legal msg) :
    ∃ t, stream.step s msg = some t ∧ t.Good ∧ t.passed = s.passed ++ [message msg] ∧
      t.ret = some socketError ∧
      (s.Law → (t.Law ↔ s.socket.lastSendPos + dataLength msg ≤ sendBufSize)) := by
  obtain ⟨r, hsend, hret, hvalid, hdvd, hwire⟩ := h.valid.sendData hlegal
  refine ⟨⟨r.socket, s.wire ++ r.wire, s.passed ++ [message msg], some r.ret⟩, ?_,
    ⟨hvalid, ?_, ?_⟩, rfl, congrArg some hret, fun hlaw => ?_⟩
  · simp only [stream, if_pos hlegal, hsend, Option.map_some]
  · rw [List.length_append]
    exact Nat.dvd_add h.wire hdvd
  · rintro ret ⟨⟩
    exact hret
  · have hmessage := hlegal.length_message
    have hlt := h.valid.lastSendPos_lt
    show (s.wire ++ r.wire) ++ r.socket.content = (s.passed ++ [message msg]).flatten ↔ _
    rw [List.append_assoc, hwire, ← List.append_assoc, hlaw, List.flatten_concat,
      List.append_right_inj]
    refine ⟨fun htake => ?_, fun hle => List.take_of_length_le (by omega)⟩
    have hlength := congrArg List.length htake
    rw [List.length_take] at hlength
    omega

/-- While the law holds, the position is the length of the stream, counted from the last whole
buffer. -/
theorem Good.lastSendPos_eq (h : s.Good) (hlaw : s.Law) :
    s.socket.lastSendPos = ((s.passed.flatten.length % sendBufSize : ℕ) : ℤ) := by
  have hcontent := h.valid.length_content
  have hlt := h.valid.lastSendPos_lt
  obtain ⟨k, hk⟩ := h.wire
  have hmod : s.passed.flatten.length % sendBufSize = s.socket.content.length := by
    rw [← hlaw, List.length_append, hk, Nat.mul_add_mod]
    exact Nat.mod_eq_of_lt (by omega)
  rw [hmod, hcontent]

end Stream

/-- The message `msg`, passed behind `msgs`, ends inside the buffer it starts in or at its
end. -/
def Fits (msgs : List (List UInt8)) (msg : List UInt8) : Prop :=
  (((msgs.map message).flatten.length % sendBufSize : ℕ) : ℤ) + dataLength msg ≤ sendBufSize

instance (msgs : List (List UInt8)) (msg : List UInt8) : Decidable (Fits msgs msg) := by
  unfold Fits
  infer_instance

/-- No message crosses the end of the buffer. -/
def AllFit (msgs : List (List UInt8)) : Prop := ∀ ms msg, ms ++ [msg] <+: msgs → Fits ms msg

/-- After each of the calls the law holds, and the position lies in the buffer. -/
def StreamKept (msgs : List (List UInt8)) : Prop :=
  ∀ ms, ms <+: msgs → ∃ t, stream.run stream.init ms = some t ∧ t.Law ∧
    0 ≤ t.socket.lastSendPos ∧ t.socket.lastSendPos < sendBufSize

/-- No call has returned `SOCKET_ERROR`. -/
def NoError (msgs : List (List UInt8)) : Prop :=
  ∀ ms, ms <+: msgs → ∃ t, stream.run stream.init ms = some t ∧ t.ret ≠ some socketError

variable {msgs : List (List UInt8)}

/-- Every sequence of calls is possible. -/
theorem exists_run (hlegal : ∀ msg ∈ msgs, Legal msg) :
    ∃ t, stream.run stream.init msgs = some t ∧ t.Good ∧ t.passed = msgs.map message := by
  induction msgs using List.reverseRecOn with
  | nil => exact ⟨stream.init, rfl, Stream.good_init, rfl⟩
  | append_singleton msgs msg ih =>
    obtain ⟨s, hrun, hgood, hpassed⟩ := ih fun m hm => hlegal m (List.mem_append_left _ hm)
    obtain ⟨t, hstep, ht, hpassed', -⟩ :=
      hgood.step (hlegal msg (List.mem_append_right _ List.mem_cons_self))
    refine ⟨t, Machine.run_snoc_eq_some.mpr ⟨s, hrun, hstep⟩, ht, ?_⟩
    rw [hpassed', hpassed, List.map_append, List.map_singleton]

/-- The last of the calls keeps the law exactly when its message fits. -/
theorem streamKept_concat_iff {msg : List UInt8} (hlegal : ∀ m ∈ msgs ++ [msg], Legal m) :
    StreamKept (msgs ++ [msg]) ↔ StreamKept msgs ∧ Fits msgs msg := by
  have hmsgs : ∀ m ∈ msgs, Legal m := fun m hm => hlegal m (List.mem_append_left _ hm)
  obtain ⟨s, hrun, hgood, hpassed⟩ := exists_run hmsgs
  obtain ⟨t, hstep, ht, -, -, hlaw⟩ :=
    hgood.step (hlegal msg (List.mem_append_right _ List.mem_cons_self))
  have hrun' : stream.run stream.init (msgs ++ [msg]) = some t :=
    Machine.run_snoc_eq_some.mpr ⟨s, hrun, hstep⟩
  have hfits : s.Law → (t.Law ↔ Fits msgs msg) := by
    intro hs
    rw [hlaw hs, hgood.lastSendPos_eq hs, hpassed]
    rfl
  constructor
  · intro hkept
    have hfront : StreamKept msgs := fun ms hms => hkept ms (hms.trans (List.prefix_append _ _))
    obtain ⟨s', hs', hslaw, -⟩ := hfront msgs (List.prefix_refl _)
    obtain rfl : s = s' := Option.some.inj (hrun.symm.trans hs')
    obtain ⟨t', ht', htlaw, -⟩ := hkept (msgs ++ [msg]) (List.prefix_refl _)
    obtain rfl : t = t' := Option.some.inj (hrun'.symm.trans ht')
    exact ⟨hfront, (hfits hslaw).mp htlaw⟩
  · rintro ⟨hfront, hfit⟩ ms hms
    rcases List.prefix_concat_iff.mp hms with rfl | hms
    · obtain ⟨s', hs', hslaw, -⟩ := hfront msgs (List.prefix_refl _)
      obtain rfl : s = s' := Option.some.inj (hrun.symm.trans hs')
      exact ⟨t, hrun', (hfits hslaw).mpr hfit, ht.valid.lastSendPos_nonneg,
        ht.valid.lastSendPos_lt⟩
    · exact hfront ms hms

theorem allFit_concat_iff {msg : List UInt8} :
    AllFit (msgs ++ [msg]) ↔ AllFit msgs ∧ Fits msgs msg := by
  constructor
  · intro hall
    exact ⟨fun ms m hm => hall ms m (hm.trans (List.prefix_append _ _)),
      hall msgs msg (List.prefix_refl _)⟩
  · rintro ⟨hall, hfit⟩ ms m hm
    rcases List.prefix_concat_iff.mp hm with heq | hm
    · obtain ⟨rfl, heq'⟩ := List.append_inj' heq rfl
      obtain rfl := List.singleton_inj.mp heq'
      exact hfit
    · exact hall ms m hm

/-- The stream is kept as long as no message crosses the end of the buffer, and no longer. -/
theorem streamKept_iff (hlegal : ∀ msg ∈ msgs, Legal msg) : StreamKept msgs ↔ AllFit msgs := by
  induction msgs using List.reverseRecOn with
  | nil =>
    refine iff_of_true (fun ms hms => ?_) fun ms m hm => ?_
    · obtain rfl := List.prefix_nil.mp hms
      exact ⟨stream.init, rfl, rfl, le_refl _, sendBufSize_pos⟩
    · exact absurd (List.prefix_nil.mp hm) (by simp)
  | append_singleton msgs msg ih =>
    rw [streamKept_concat_iff hlegal, allFit_concat_iff,
      ih fun m hm => hlegal m (List.mem_append_left _ hm)]

/-- Every call of `sendData` returns `SOCKET_ERROR`, though no `send` has failed. -/
theorem noError_iff (hlegal : ∀ msg ∈ msgs, Legal msg) : NoError msgs ↔ msgs = [] := by
  constructor
  · intro hno
    by_contra hne
    obtain ⟨msg, hmsg⟩ : ∃ msg, [msg] <+: msgs := by
      cases msgs with
      | nil => exact absurd rfl hne
      | cons msg msgs => exact ⟨msg, ⟨msgs, rfl⟩⟩
    obtain ⟨t, hrun, hret⟩ := hno [msg] hmsg
    obtain ⟨t', hstep, -, -, hret', -⟩ :=
      Stream.good_init.step (hlegal msg (hmsg.subset List.mem_cons_self))
    rw [Machine.run_cons, hstep, Option.bind_some, Machine.run_nil, Option.some.injEq] at hrun
    exact hret (hrun ▸ hret')
  · rintro rfl ms hms
    obtain rfl := List.prefix_nil.mp hms
    exact ⟨stream.init, rfl, by simp [stream]⟩

/-- **The outgoing stream of `sendData`.**  For every sequence of messages and every `send`
taking the whole buffer: what is on the wire and in the buffer is the messages in order exactly
when no message crosses the end of the buffer; and the calls report no error exactly when there
are none. -/
theorem sendData_stream_iff (msgs : List (List UInt8)) (hlegal : ∀ msg ∈ msgs, Legal msg) :
    (StreamKept msgs ∧ NoError msgs ↔ msgs = []) ∧ (StreamKept msgs ↔ AllFit msgs) := by
  refine ⟨⟨fun h => (noError_iff hlegal).mp h.2, ?_⟩, streamKept_iff hlegal⟩
  rintro rfl
  refine ⟨(streamKept_iff hlegal).mpr fun ms m hm => ?_, (noError_iff hlegal).mpr rfl⟩
  exact absurd (List.prefix_nil.mp hm) (by simp)

/-- A message of 32767 bytes, the longest there is. -/
def longest : List UInt8 := 255 :: 127 :: List.replicate 32765 0

theorem legal_longest : Legal longest := by
  have hlength : dataLength longest = 32767 := by decide
  rw [Legal, hlength, longest, List.length_cons, List.length_cons, List.length_replicate]
  decide

/-- One longest message ends inside the buffer, and the stream is kept. -/
theorem sendData_stream_longest : StreamKept [longest] := by
  have hlegal : ∀ msg ∈ [longest], Legal msg := by
    intro msg hmsg
    rw [List.mem_singleton.mp hmsg]
    exact legal_longest
  refine (sendData_stream_iff [longest] hlegal).2.mpr ?_
  show AllFit ([] ++ [longest])
  refine allFit_concat_iff.mpr ⟨fun ms m hm => ?_, by decide⟩
  exact absurd (List.prefix_nil.mp hm) (by simp)

/-- Of two longest messages the second crosses the end of the buffer, and its last 14334 bytes
are lost.  Already the call for the first returns `SOCKET_ERROR`. -/
theorem sendData_loses_bytes :
    (∀ msg ∈ [longest, longest], Legal msg) ∧ ¬ StreamKept [longest, longest] ∧
      ¬ NoError [longest] := by
  have hlegal : ∀ n, ∀ msg ∈ List.replicate n longest, Legal msg := by
    intro n msg hmsg
    rw [List.eq_of_mem_replicate hmsg]
    exact legal_longest
  refine ⟨hlegal 2, fun hkept => ?_, fun hno => ?_⟩
  · have hkept' : StreamKept ([longest] ++ [longest]) := hkept
    have hfits := (streamKept_concat_iff (hlegal 2)).mp hkept'
    have hlength : dataLength longest = 32767 := by decide
    have hmessage := legal_longest.length_message
    rw [Fits, List.map_singleton, List.flatten_singleton] at hfits
    have hmod : (message longest).length = 32767 := by omega
    rw [hmod, hlength] at hfits
    exact absurd hfits.2 (by decide)
  · exact absurd ((noError_iff (hlegal 1)).mp hno) (List.cons_ne_nil _ _)

end ClientSocket
end EasyTcpServer
