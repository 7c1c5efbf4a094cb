import EasyTcpServer.Buffer.ClientSocket
import EasyTcpServer.Buffer.SendStream
import EasyTcpServer.Client.SendData
import EasyTcpServer.Lib.Link
import EasyTcpServer.Message.DataHeader

/-!
# The three senders

Messages leave a program in three ways.  `Client::SendData` gives each to `send` as it is.
`Cell_Client` of `Cell_Server.h` collects them in a `Cell_Buffer`, which `Write_to_Socket`
empties.  `Client_socket::sendData` of `Server.h` collects them in `_szSendBuf`, which is sent
when it is full.  Each of them keeps to the stream of the messages it has accepted as long as
its calls are of the kind that `Client.SendData`, `Buffer.SendStream` and `Buffer.ClientSocket`
single out.

`N` bounds the length of a message; the receiver's buffer has to have that much.
-/

namespace EasyTcpServer

/-! ## `Client::SendData` -/

namespace Client.Outgoing

/-- The calls that keep to the stream: no `send` stops short. -/
def Keeps (N : ℕ) : SendAct → Prop
  | .sendData msg r =>
    (messageFormat.Frame msg ∧ msg.length ≤ N) ∧ (SendAct.sendData msg r).Whole
  | .closeSock => True

/-- What a call puts on the wire. -/
def emit (s : Outgoing) : SendAct → List UInt8
  | .sendData msg r => (s.client.sendData (some msg) msg.length r).2
  | .closeSock => []

theorem emit_of_pos {s : Outgoing} {msg : List UInt8} (hrun : s.client.isRun = true)
    (hpos : 0 < (msg.length : ℤ)) : s.emit (.sendData msg msg.length) = msg := by
  have hsend : s.client.sendData (some msg) msg.length msg.length = (0, msg) := by
    rw [Client.sendData]
    simp only [hrun, if_true, if_neg (not_le.mpr hpos), Int.toNat_natCast, List.take_length]
  rw [emit, hsend]

theorem emit_of_not_pos {s : Outgoing} {msg : List UInt8} {r : ℤ}
    (hr : s.client.isRun = true → r ≤ 0) : s.emit (.sendData msg r) = [] := by
  by_cases hrun : s.client.isRun = true
  · simp [emit, Client.sendData, hrun, hr hrun]
  · simp [emit, Client.sendData, hrun]

/-- A message is put on the wire as a whole, or it is not accepted. -/
theorem step_keeps {c : Client} {N : ℕ} {s t : Outgoing} {i : SendAct} (hkeeps : Keeps N i)
    (hstep : (outgoing c).step s i = some t) :
    ∃ ms : List (List UInt8), (∀ m ∈ ms, messageFormat.Frame m ∧ m.length ≤ N) ∧
      t.passed = s.passed ++ ms ∧ s.emit i = ms.flatten := by
  cases i with
  | closeSock =>
    obtain rfl := Option.some.inj hstep
    exact ⟨[], fun _ h => absurd h List.not_mem_nil, (List.append_nil _).symm, rfl⟩
  | sendData msg r =>
    obtain ⟨hmsg, hwhole⟩ := hkeeps
    obtain ⟨-, rfl⟩ := Machine.guarded_eq_some.mp hstep
    by_cases hsent : s.client.isRun = true ∧ 0 < r
    · obtain ⟨hrun, hr⟩ := hsent
      obtain rfl : r = msg.length := hwhole.resolve_left (not_le.mpr hr)
      refine ⟨[msg], fun m hm => List.mem_singleton.mp hm ▸ hmsg, ?_, ?_⟩
      · rw [Outgoing.sendData_of_pos hrun hr]
      · rw [emit_of_pos hrun hr, List.flatten_singleton]
    · have hr : s.client.isRun = true → r ≤ 0 := fun hrun => not_lt.mp fun h => hsent ⟨hrun, h⟩
      refine ⟨[], fun _ h => absurd h List.not_mem_nil, ?_, ?_⟩
      · rw [Outgoing.sendData_of_not_pos hr, List.append_nil]
      · rw [emit_of_not_pos hr, List.flatten_nil]

end Client.Outgoing

/-- `SendData` keeps to the stream when no `send` stops short. -/
def Client.sender (c : Client) (N : ℕ) : Sender (Client.outgoing c) messageFormat N where
  Good _ := True
  Ok _ := Client.Outgoing.Keeps N
  accepted s := s.passed
  held _ := []
  emit s := s.emit
  good_init := trivial
  accepted_init := rfl
  held_init := rfl
  step _ hkeeps hstep := by
    obtain ⟨ms, hms, hpassed, hemit⟩ := Client.Outgoing.step_keeps hkeeps hstep
    exact ⟨trivial, ms, hms, hpassed, by rw [hemit, List.append_nil, List.nil_append]⟩

/-! ## `Cell_Buffer::push` and `Write_to_Socket` -/

namespace SendStream

variable {nSize : ℕ} {mem : Vector UInt8 nSize} {s t : State}

/-- The calls that keep to the stream: every `send` takes all there is, and no `push` counts past
`INT_MAX`.  The pushes that find no room accept nothing. -/
def Keeps (N : ℕ) (s : State) : Act → Prop
  | .push pData nLen =>
    (messageFormat.Frame (pData.take nLen.toNat) ∧ (pData.take nLen.toNat).length ≤ N) ∧
      s.buff.nLast + nLen ≤ intMax
  | .write r => r = s.buff.nLast

/-- What a call puts on the wire. -/
def emit (s : State) : Act → List UInt8
  | .push _ _ => []
  | .write r => s.buff.sendRange.take (s.buff.writeToSocket true r).1.toNat

/-- The connection is there, and the buffer is as it should be. -/
def Established (s : State) : Prop := s.buff.Valid ∧ s.status = .established

/-- A message is put into the buffer as a whole, or it is not accepted; a `send` empties the
buffer. -/
theorem step_keeps {N : ℕ} {i : Act} (h : Established s) (hkeeps : Keeps N s i)
    (hstep : (sendStream mem).step s i = some t) :
    Established t ∧ ∃ ms : List (List UInt8),
      (∀ m ∈ ms, messageFormat.Frame m ∧ m.length ≤ N) ∧
        t.accepted = s.accepted ++ ms ∧
          emit s i ++ t.buff.content = s.buff.content ++ ms.flatten := by
  obtain ⟨hvalid, hstatus⟩ := h
  obtain ⟨-, hlegal, rfl⟩ := SendStream.step_eq_some.mp hstep
  cases i with
  | push pData nLen =>
    obtain ⟨hmsg, hmax⟩ := hkeeps
    by_cases hfits : s.buff.nLast + nLen ≤ s.buff.nSize
    · obtain ⟨b, hb, hb_valid, hcontent, -⟩ := hvalid.push_of_fits hlegal.1 hlegal.2 hfits
      refine ⟨⟨?_, ?_⟩, [pData.take nLen.toNat],
        fun m hm => List.mem_singleton.mp hm ▸ hmsg, ?_, ?_⟩
      · simpa [SendStream.next, SendStream.push, hb] using hb_valid
      · simpa [SendStream.next, SendStream.push, hb] using hstatus
      · simp [SendStream.next, SendStream.push, hb]
      · simp [emit, SendStream.next, SendStream.push, hb, hcontent]
    · have hpush : s.buff.push (some pData) nLen = _ := CellBuffer.push_of_not_fits hmax hfits
      refine ⟨⟨SendStream.valid_push hvalid hlegal, ?_⟩, [],
        fun _ h => absurd h List.not_mem_nil, ?_, ?_⟩
      · simpa [SendStream.next, SendStream.push, hpush] using hstatus
      · simp [SendStream.next, SendStream.push, hpush]
      · simp [emit, SendStream.next, SendStream.push, hpush, CellBuffer.content]
  | write r =>
    obtain rfl : r = s.buff.nLast := hkeeps
    have hret := SendStream.writeToSocket_ret hlegal
    obtain ⟨hvalid', hempty⟩ := hvalid.writeToSocket_true s.buff.nLast
    have hlast : s.buff.nLast ≠ socketError := by
      have := hvalid.nLast_nonneg
      unfold socketError
      omega
    have hrange : s.buff.sendRange.take s.buff.nLast.toNat = s.buff.content := by
      rw [CellBuffer.sendRange, List.take_take, Nat.min_self, CellBuffer.content]
    refine ⟨⟨hvalid', ?_⟩, [], fun _ h => absurd h List.not_mem_nil, ?_, ?_⟩
    · simpa [SendStream.next, SendStream.write, hret, hlast] using hstatus
    · exact (List.append_nil _).symm
    · show s.buff.sendRange.take (s.buff.writeToSocket true s.buff.nLast).1.toNat ++
        (s.buff.writeToSocket true s.buff.nLast).2.content = s.buff.content ++ []
      rw [hret, hrange, hempty]

end SendStream

/-- A send buffer keeps to the stream when every `send` takes all of it. -/
def SendStream.sender {nSize : ℕ} (mem : Vector UInt8 nSize) (hsize : (nSize : ℤ) ≤ intMax)
    (N : ℕ) : Sender (sendStream mem) messageFormat N where
  Good := SendStream.Established
  Ok := SendStream.Keeps N
  accepted s := s.accepted
  held s := s.buff.content
  emit := SendStream.emit
  good_init := ⟨CellBuffer.valid_new mem hsize, rfl⟩
  accepted_init := rfl
  held_init := CellBuffer.content_new mem
  step := SendStream.step_keeps

/-! ## `Client_socket::sendData` -/

namespace ClientSocket.Stream

variable {s t : Stream} {msg : List UInt8}

/-- The calls that keep to the stream: no message crosses the end of `_szSendBuf`. -/
def Keeps (N : ℕ) (s : Stream) (msg : List UInt8) : Prop :=
  (messageFormat.Frame (message msg) ∧ (message msg).length ≤ N) ∧
    s.socket.lastSendPos + dataLength msg ≤ sendBufSize

/-- What a call puts on the wire. -/
def emit (s : Stream) (msg : List UInt8) : List UInt8 :=
  ((s.socket.sendData msg [sendBufSize]).map (·.wire)).getD []

/-- The message goes behind the others, in the buffer or on the wire. -/
theorem step_keeps {N : ℕ} (hvalid : s.socket.Valid) (hkeeps : Keeps N s msg)
    (hstep : stream.step s msg = some t) :
    t.socket.Valid ∧ ∃ ms : List (List UInt8),
      (∀ m ∈ ms, messageFormat.Frame m ∧ m.length ≤ N) ∧ t.passed = s.passed ++ ms ∧
        s.emit msg ++ t.socket.content = s.socket.content ++ ms.flatten := by
  obtain ⟨hmsg, hfits⟩ := hkeeps
  simp only [stream, Option.ite_none_right_eq_some, Option.map_eq_some_iff] at hstep
  obtain ⟨hlegal, r, hr, rfl⟩ := hstep
  obtain ⟨r', hr', -, hvalid', -, hwire⟩ := hvalid.sendData hlegal
  obtain rfl : r = r' := Option.some.inj (hr.symm.trans hr')
  have hmessage := hlegal.length_message
  refine ⟨hvalid', [message msg], fun m hm => List.mem_singleton.mp hm ▸ hmsg, rfl, ?_⟩
  rw [emit, hr, Option.map_some, Option.getD_some, hwire, List.flatten_singleton,
    List.take_of_length_le (by omega)]

end ClientSocket.Stream

/-- `sendData` keeps to the stream when no message crosses the end of `_szSendBuf`. -/
def ClientSocket.sender (N : ℕ) : Sender ClientSocket.stream messageFormat N where
  Good s := s.socket.Valid
  Ok := ClientSocket.Stream.Keeps N
  accepted s := s.passed
  held s := s.socket.content
  emit := ClientSocket.Stream.emit
  good_init := ClientSocket.valid_new
  accepted_init := rfl
  held_init := ClientSocket.content_new
  step := ClientSocket.Stream.step_keeps

end EasyTcpServer
