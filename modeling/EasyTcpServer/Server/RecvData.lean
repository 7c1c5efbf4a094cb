import EasyTcpServer.Buffer.CellClient
import EasyTcpServer.Lib.FramedReceiver

/-!
# `Cell_Server::recvData`

One call of `recvData` reads once from the socket and then hands every complete message
in the receive buffer to `onNetMsg`.  The machine below takes the call apart: the read,
with the outcome of `recv` as a label, is one step, and each turn of the loop
`while (hasMsg())` is one step.  A loop that does not end is then an unbounded sequence
of turns and not a missing value.

A turn is the test of `hasMsg`, the call of `onNetMsg` and `pop_front_msg`.  The handler
gets a pointer into the receive buffer and does not write through it; what it is handed
is recorded as the first `dataLength` bytes there.

## What is provided

* `receiver`, the machine of one client, and `receiver.implementation`: with a valid
  receive buffer it implements the framed receiver of the message format.
* `recvData_framing`: the messages handed on are the parse of the bytes received.
-/

namespace EasyTcpServer

open FramedReceiver (Phase)

namespace CellServer

/-- The state of the receiving side of one client.  `received` and `delivered` record what
came in through `recv` and what went out to `onNetMsg`. -/
structure RecvState where
  phase : Phase
  client : CellClient
  received : List UInt8
  delivered : List (List UInt8)
  deriving DecidableEq, Repr

/-- What can happen to it. -/
inductive RecvAct where
  /-- `recvData` is called; there is room in the buffer and `recv` reports `o`. -/
  | recv (o : Recv)
  /-- `recvData` is called; the buffer is full and `recv` is not called. -/
  | full
  /-- A turn of the loop. -/
  | turn
  deriving DecidableEq, Repr

/-- The part of `recvData` before the loop.  A negative result makes `recvData` return
`-1`, and its caller removes the client. -/
def enter (s : RecvState) (o : Recv) : RecvState :=
  match s.client.recvData o with
  | none => { s with phase := .undefined }
  | some (nLen, client) =>
    if nLen < 0 then { s with phase := .left, client := client }
    else
      { s with
        phase := .extract
        client := client
        received := s.received ++ o.received }

/-- A turn of the loop of `recvData`. -/
def turn (s : RecvState) : RecvState :=
  if s.client.hasMsg then
    match s.client.popFrontMsg with
    | none => { s with phase := .undefined }
    | some client =>
      { s with
        client := client
        delivered := s.delivered ++
          [s.client.frontMsg.take (dataLength s.client.frontMsg).toNat] }
  else { s with phase := .idle }

/-- The receiving side of a client that starts as `c`. -/
def receiver (c : CellClient) : Machine RecvState RecvAct where
  init := ⟨.idle, c, [], []⟩
  step s
    | .recv o =>
      if s.phase = .idle ∧ 0 < s.client.recvBuff.room ∧ o.Legal s.client.recvBuff.room then
        some (enter s o)
      else none
    | .full =>
      if s.phase = .idle ∧ ¬ 0 < s.client.recvBuff.room then some (enter s (.fail 0)) else none
    | .turn => if s.phase = .extract then some (turn s) else none

/-! ## The refinement -/

/-- The framed receiver's state a receiving side stands for. -/
def RecvState.abs (s : RecvState) : FramedReceiver.State UInt8 :=
  ⟨s.phase, s.received, s.delivered, s.client.recvBuff.content⟩

/-- The framed receiver's label: a failing `recv` gives the connection up, and a call that
reads nothing is an arrival of nothing. -/
def RecvAct.abs : RecvAct → FramedReceiver.Act UInt8
  | .recv (.bytes chunk) => .arrive chunk
  | .recv (.fail ret) => if ret < 0 then .quit else .arrive []
  | .full => .arrive []
  | .turn => .turn

/-- The receive buffer is valid and of the size it was built with. -/
structure RecvState.Good (N : ℕ) (s : RecvState) : Prop where
  valid : s.client.recvBuff.Valid
  nSize : s.client.recvBuff.nSize = N

variable {N : ℕ} {s t : RecvState} {c : CellClient}

theorem RecvState.Good.room (h : s.Good N) :
    s.client.recvBuff.room = N - (s.client.recvBuff.content.length : ℤ) := by
  rw [h.valid.length_content, ← h.nSize]
  rfl

/-- Reading a chunk. -/
theorem RecvState.Good.enter_bytes (h : s.Good N) {chunk : List UInt8}
    (hphase : s.phase = .idle) (hroom : 0 < s.client.recvBuff.room)
    (hlegal : (Recv.bytes chunk).Legal s.client.recvBuff.room) :
    (enter s (.bytes chunk)).Good N ∧
      (framedReceiver messageFormat N).step s.abs (.arrive chunk) =
        some (enter s (.bytes chunk)).abs := by
  obtain ⟨b, hread, hvalid, hcontent, hsize⟩ := h.valid.readForSocket_bytes hroom hlegal.2
  have henter : enter s (.bytes chunk) = { s with
      phase := .extract
      client := { s.client with recvBuff := b }
      received := s.received ++ chunk } := by
    have hsign : ¬ ((chunk.length : ℤ) < 0) := by omega
    simp [enter, CellClient.recvData, hread, hsign, Recv.received]
  have hle : s.client.recvBuff.content.length + chunk.length ≤ N := by
    have := hlegal.2
    rw [h.room] at this
    omega
  rw [henter]
  refine ⟨⟨hvalid, hsize.trans h.nSize⟩, ?_⟩
  simp [framedReceiver, RecvState.abs, hphase, hle, hcontent]

/-- A read that brings nothing: `recv` reports zero or is not called. -/
theorem RecvState.Good.enter_nothing (h : s.Good N) (hphase : s.phase = .idle) :
    (enter s (.fail 0)).Good N ∧
      (framedReceiver messageFormat N).step s.abs (.arrive []) =
        some (enter s (.fail 0)).abs := by
  have hread : s.client.recvBuff.readForSocket (.fail 0) = some (0, s.client.recvBuff) := by
    unfold CellBuffer.readForSocket
    split <;> rfl
  have henter : enter s (.fail 0) = { s with phase := .extract } := by
    simp [enter, CellClient.recvData, hread, Recv.received]
  have hle : s.client.recvBuff.content.length ≤ N := by
    have hlen := h.valid.length_content
    have hlast := h.valid.nLast_le
    have hsize := h.nSize
    omega
  rw [henter]
  refine ⟨⟨h.valid, h.nSize⟩, ?_⟩
  simp [framedReceiver, RecvState.abs, hphase, hle]

/-- A read that fails. -/
theorem RecvState.Good.enter_fail (h : s.Good N) {ret : ℤ} (hphase : s.phase = .idle)
    (hroom : 0 < s.client.recvBuff.room) (hret : ret < 0) :
    (enter s (.fail ret)).Good N ∧
      (framedReceiver messageFormat N).step s.abs .quit = some (enter s (.fail ret)).abs := by
  have henter : enter s (.fail ret) = { s with phase := .left } := by
    simp [enter, CellClient.recvData, CellBuffer.readForSocket, hroom, hret]
  rw [henter]
  refine ⟨⟨h.valid, h.nSize⟩, ?_⟩
  simp [framedReceiver, RecvState.abs, hphase]

/-- **A turn of the loop is a turn of the framed receiver.** -/
theorem RecvState.Good.turn (h : s.Good N) (hphase : s.phase = .extract) :
    (CellServer.turn s).Good N ∧
      (framedReceiver messageFormat N).step s.abs .turn = some (CellServer.turn s).abs := by
  by_cases hmsg : s.client.recvBuff.hasMsg = true
  · have hcomplete := h.valid.hasMsg_iff.mp hmsg
    have hlength := h.valid.dataLength_content hmsg
    rcases lt_or_ge (messageFormat.declared s.client.recvBuff.content) 0 with hneg | hnonneg
    · have hpop := h.valid.pop_of_neg (hlength ▸ hneg)
      have hturn : CellServer.turn s = { s with phase := .undefined } := by
        simp [CellServer.turn, CellClient.hasMsg, CellClient.popFrontMsg, CellClient.frontMsg,
          CellBuffer.data, hmsg, hpop]
      rw [hturn]
      exact ⟨⟨h.valid, h.nSize⟩, FramedReceiver.step_turn_undefined hphase hcomplete hneg⟩
    · have hle : dataLength s.client.recvBuff.pBuff ≤ s.client.recvBuff.nLast := by
        rw [hlength, ← h.valid.length_content]
        exact hcomplete.2
      obtain ⟨b, hpop, hvalid, hcontent, hsize⟩ :=
        h.valid.pop_of_nonneg (hlength ▸ hnonneg) hle
      have hsize' : messageFormat.size s.client.recvBuff.content =
          (dataLength s.client.recvBuff.pBuff).toNat := by
        rw [hlength]
        rfl
      -- the message lies inside the received part of the block
      have htake : s.client.recvBuff.pBuff.take (dataLength s.client.recvBuff.pBuff).toNat =
          s.client.recvBuff.content.take (messageFormat.size s.client.recvBuff.content) := by
        rw [hsize', CellBuffer.content, List.take_take, Nat.min_eq_left (by omega)]
      have hturn : CellServer.turn s = { s with
          client := { s.client with recvBuff := b }
          delivered := s.delivered ++
            [s.client.recvBuff.content.take (messageFormat.size s.client.recvBuff.content)] } := by
        simp [CellServer.turn, CellClient.hasMsg, CellClient.popFrontMsg, CellClient.frontMsg,
          CellBuffer.data, hmsg, hpop, htake]
      rw [hturn]
      refine ⟨⟨hvalid, hsize.trans h.nSize⟩, ?_⟩
      rw [← hsize'] at hcontent
      rw [FramedReceiver.step_turn_cut hphase hcomplete hnonneg]
      simp [FramedReceiver.State.cut, RecvState.abs, hcontent]
  · have hincomplete := mt h.valid.hasMsg_iff.mpr hmsg
    have hturn : CellServer.turn s = { s with phase := .idle } := by
      simp [CellServer.turn, CellClient.hasMsg, hmsg]
    rw [hturn]
    exact ⟨⟨h.valid, h.nSize⟩, FramedReceiver.step_turn_exit hphase hincomplete⟩

/-- **The receiving side implements the framed receiver**, from any client whose receive
buffer is valid and empty. -/
def receiver.implementation (c : CellClient) (N : ℕ) (hvalid : c.recvBuff.Valid)
    (hsize : c.recvBuff.nSize = N) (hempty : c.recvBuff.content = []) :
    FramedReceiver.Implementation (receiver c) messageFormat N where
  Good := RecvState.Good N
  abs := RecvState.abs
  act := RecvAct.abs
  turn := .turn
  act_turn := rfl
  good_init := ⟨hvalid, hsize⟩
  abs_init := by simp [receiver, framedReceiver, RecvState.abs, hempty]
  step := by
    intro s t i hs hstep
    cases i with
    | recv o =>
      obtain ⟨⟨hphase, hroom, hlegal⟩, rfl⟩ := Machine.guarded_eq_some.mp hstep
      cases o with
      | bytes chunk => exact hs.enter_bytes hphase hroom hlegal
      | fail ret =>
        rcases lt_or_ge ret 0 with hneg | hnonneg
        · simp only [RecvAct.abs, if_pos hneg]
          exact hs.enter_fail hphase hroom hneg
        · obtain rfl : ret = 0 := le_antisymm hlegal hnonneg
          exact hs.enter_nothing hphase
    | full =>
      obtain ⟨⟨hphase, -⟩, rfl⟩ := Machine.guarded_eq_some.mp hstep
      exact hs.enter_nothing hphase
    | turn =>
      obtain ⟨hphase, rfl⟩ := Machine.guarded_eq_some.mp hstep
      exact hs.turn hphase
  turn_enabled s _ hphase := ⟨_, if_pos hphase⟩

/-- The receiving side of a new connection: the buffers come from `new char[]` and hold
arbitrary bytes. -/
def newReceiver (sendMem : Vector UInt8 sendBuffSize) (recvMem : Vector UInt8 recvBuffSize)
    (sockfd : Socket) : Machine RecvState RecvAct :=
  receiver (.new sendMem recvMem sockfd)

section NewReceiver

variable (sendMem : Vector UInt8 sendBuffSize) (recvMem : Vector UInt8 recvBuffSize)
  (sockfd : Socket)

/-- The implementation for a new connection, whose receive buffer has `RECV_BUFF_SIZE`
bytes. -/
def newReceiver.implementation :
    FramedReceiver.Implementation (newReceiver sendMem recvMem sockfd) messageFormat
      recvBuffSize :=
  receiver.implementation _ _ (CellBuffer.valid_new recvMem (by decide)) rfl
    (CellBuffer.content_new recvMem)

/-- A new connection can be led to whatever the framed receiver comes to from a chunk in
its buffer. -/
theorem newReceiver.exists_reachable {chunk : List UInt8} (hne : 1 ≤ chunk.length)
    (hle : chunk.length ≤ recvBuffSize) {k : ℕ} {u : FramedReceiver.State UInt8}
    (h : (framedReceiver messageFormat recvBuffSize).iterate .turn k
      ⟨.extract, chunk, [], chunk⟩ = some u) :
    ∃ t, (newReceiver sendMem recvMem sockfd).Reachable t ∧ t.Good recvBuffSize ∧
      t.abs = u := by
  have hroom : (newReceiver sendMem recvMem sockfd).init.client.recvBuff.room = recvBuffSize := by
    simp [newReceiver, receiver, CellClient.new, CellBuffer.new, CellBuffer.room]
  refine (newReceiver.implementation sendMem recvMem sockfd).exists_reachable_of_arrival
    (i := .recv (.bytes chunk)) rfl ⟨_, if_pos ⟨rfl, ?_, hne, ?_⟩⟩ h
  · rw [hroom]
    decide
  · rw [hroom]
    exact Int.ofNat_le.mpr hle

/-- **Framing of the receive path.**  Whatever way `recv` cuts the stream, provided every
header met announces between 1 and `RECV_BUFF_SIZE` bytes: every call of `recvData` ends;
between calls the messages handed to `onNetMsg` are the parse of all bytes received, the
buffer holds the remainder, and there is room to read more. -/
theorem recvData_framing {s : RecvState}
    (hs : (newReceiver sendMem recvMem sockfd).Reachable s)
    (hheaders : messageFormat.HeadersSatisfy (fun n => 1 ≤ n ∧ n ≤ recvBuffSize) s.received) :
    (s.phase = .extract → ∃ k t,
        (newReceiver sendMem recvMem sockfd).iterate .turn k s = some t ∧ t.phase = .idle) ∧
      (s.phase ≠ .extract →
        messageFormat.parse s.received = (s.delivered, s.client.recvBuff.content) ∧
        s.client.recvBuff.nLast < s.client.recvBuff.nSize) := by
  have hpos : messageFormat.HeadersSatisfy (0 < ·) s.received := hheaders.mono fun _ h => h.1
  let I := newReceiver.implementation sendMem recvMem sockfd
  obtain ⟨hends, hparse⟩ := I.framing (by decide) hs hpos
  refine ⟨hends, fun hphase => ⟨hparse hphase, ?_⟩⟩
  have hgood : s.Good recvBuffSize := (I.toRefinement.reachable hs).1
  have hconsistent := I.consistent (by decide) hs
  have hincomplete : ¬ messageFormat.Complete s.client.recvBuff.content :=
    hconsistent.not_complete (hpos.mono fun _ h => le_of_lt h) hphase
  have hshort := Format.length_lt_of_not_complete hincomplete (n := recvBuffSize) (by decide)
    ((hheaders.mono fun _ h => h.2).of_cuts hconsistent.cuts)
  rw [hgood.nSize, ← hgood.valid.length_content]
  exact Int.ofNat_lt.mpr hshort

/-- A message of five bytes and one byte more: the only header met announces five. -/
theorem headersSatisfy_five_bytes {P : ℤ → Prop} (h : P 5) :
    messageFormat.HeadersSatisfy P [5, 0, 0, 0, 9, 7] := by
  rw [Format.headersSatisfy_iff]
  refine ⟨fun _ => h, fun _ _ => ?_⟩
  rw [Format.headersSatisfy_iff]
  exact ⟨fun h => absurd h (by decide), fun h => absurd h.1 (by decide)⟩

/-- Two messages' worth of input in one read: `[5, 0, 0, 0, 9]` is handed on, the byte
behind it stays. -/
theorem recvData_framing_five_bytes :
    ∃ s, (newReceiver (.replicate _ 0) (.replicate _ 0) 3).Reachable s ∧
      s.received = [5, 0, 0, 0, 9, 7] ∧
      messageFormat.parse s.received = (s.delivered, s.client.recvBuff.content) ∧
      s.client.recvBuff.nLast < s.client.recvBuff.nSize := by
  have hrun : (framedReceiver messageFormat recvBuffSize).iterate .turn 2
      ⟨.extract, [5, 0, 0, 0, 9, 7], [], [5, 0, 0, 0, 9, 7]⟩ =
      some ⟨.idle, [5, 0, 0, 0, 9, 7], [[5, 0, 0, 0, 9]], [7]⟩ := by decide
  obtain ⟨s, hs, -, habs⟩ := newReceiver.exists_reachable (.replicate _ 0) (.replicate _ 0) 3
    (by decide) (by decide) hrun
  have hreceived : s.received = [5, 0, 0, 0, 9, 7] := congrArg (·.received) habs
  have hphase : s.phase = .idle := congrArg (·.phase) habs
  have hheaders : messageFormat.HeadersSatisfy (fun n => 1 ≤ n ∧ n ≤ recvBuffSize) s.received := by
    rw [hreceived]
    exact headersSatisfy_five_bytes (by decide)
  have hframing := recvData_framing (.replicate _ 0) (.replicate _ 0) 3 hs hheaders
  exact ⟨s, hs, hreceived, hframing.2 (by rw [hphase]; decide)⟩

end NewReceiver

end CellServer
end EasyTcpServer
