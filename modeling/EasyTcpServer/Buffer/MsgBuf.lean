import Mathlib.Data.Int.Order.Basic
import EasyTcpServer.Buffer.CellBuffer
import EasyTcpServer.Lib.FramedReceiver

/-!
# The fixed message buffer

The test client and the server of `Server.h` keep what they receive in a member array
`_szMsgBuf[RECV_BUFF_SIZE * 5]` and a fill level, `_lastPos` respectively `_lastRecvPos`.
Their receive functions are the same statements on these two members: read behind the
fill level, then, as long as a header and the message it announces are there, call
`onNetMsg` and move the rest to the front.

Two things differ from `Cell_Buffer`.  A read that brings nothing ends the call with `-1`,
whatever the reason.  And the rest is moved without asking whether there is any, which is
a copy of zero bytes when there is none.
-/

namespace EasyTcpServer

open FramedReceiver (Phase)

/-- `RECV_BUFF_SIZE * 5`. -/
def msgBufSize : ℕ := 10240 * 5

structure MsgBuf where
  szMsgBuf : List UInt8
  lastPos : ℤ
  deriving DecidableEq, Repr

namespace MsgBuf

/-- The array as it is constructed, with some contents. -/
def new (mem : Vector UInt8 msgBufSize) : MsgBuf := ⟨mem.toList, 0⟩

variable (b : MsgBuf)

/-- How many bytes `recv` is asked for.  It is called for zero bytes too, and reports zero
then. -/
def room : ℤ := msgBufSize - b.lastPos

/-- The part before the loop: `-1`, or the fill level moved behind the chunk. -/
def append (o : Recv) : Option (ℤ × MsgBuf) :=
  match o with
  | .bytes chunk => do
    let mem ← Block.write b.szMsgBuf b.lastPos chunk
    return (0, ⟨mem, b.lastPos + chunk.length⟩)
  | .fail _ => some (-1, b)

/-- The condition of the loop and of the `if` inside it. -/
def hasMsg : Bool :=
  if sizeofDataHeader ≤ toSizeT b.lastPos then dataLength b.szMsgBuf ≤ b.lastPos else false

/-- What the loop does with a message after `onNetMsg` has seen it. -/
def shift : Option MsgBuf := do
  let nSize := b.lastPos - dataLength b.szMsgBuf
  let mem ← Block.copyWithin b.szMsgBuf 0 (dataLength b.szMsgBuf) nSize
  return ⟨mem, nSize⟩

/-! ## Valid buffers -/

/-- The fill level lies in the array. -/
structure Valid : Prop where
  length_szMsgBuf : b.szMsgBuf.length = msgBufSize
  lastPos_nonneg : 0 ≤ b.lastPos
  lastPos_le : b.lastPos ≤ msgBufSize

/-- The bytes in front of the fill level. -/
def content : List UInt8 := b.szMsgBuf.take b.lastPos.toNat

theorem valid_new (mem : Vector UInt8 msgBufSize) : (new mem).Valid := by
  refine ⟨?_, le_refl _, ?_⟩
  · simp [new]
  · simp [new]

@[simp] theorem content_new (mem : Vector UInt8 msgBufSize) : (new mem).content = [] := by
  simp [content, new]

variable {b}

theorem Valid.length_content (h : b.Valid) : (b.content.length : ℤ) = b.lastPos := by
  have hlen := h.length_szMsgBuf
  have hnonneg := h.lastPos_nonneg
  have hle := h.lastPos_le
  unfold content
  rw [List.length_take]
  omega

/-- Reading a chunk appends it to the content. -/
theorem Valid.append_bytes (h : b.Valid) {chunk : List UInt8}
    (hchunk : (chunk.length : ℤ) ≤ b.room) :
    ∃ b', b.append (.bytes chunk) = some (0, b') ∧ b'.Valid ∧
      b'.content = b.content ++ chunk := by
  have hlen := h.length_szMsgBuf
  have hnonneg := h.lastPos_nonneg
  have hroom : b.room = msgBufSize - b.lastPos := rfl
  obtain ⟨mem, hmem⟩ : ∃ mem, Block.write b.szMsgBuf b.lastPos chunk = some mem :=
    ⟨_, Block.write_eq_some hnonneg (by omega)⟩
  obtain ⟨hlength, htake⟩ := Block.write_spec hmem
  refine ⟨⟨mem, b.lastPos + chunk.length⟩, ?_, ?_, ?_⟩
  · simp [append, hmem]
  · refine ⟨hlength.trans hlen, ?_, ?_⟩
    · show 0 ≤ b.lastPos + chunk.length
      omega
    · show b.lastPos + chunk.length ≤ msgBufSize
      omega
  · show mem.take (b.lastPos + chunk.length).toNat = b.szMsgBuf.take b.lastPos.toNat ++ chunk
    rw [← htake]
    congr 1
    omega

/-- The test of the loop is the test of the framing format. -/
theorem Valid.hasMsg_iff (h : b.Valid) : b.hasMsg = true ↔ messageFormat.Complete b.content :=
  test_iff_complete h.lastPos_nonneg (le_trans h.lastPos_le (by decide)) h.length_content

theorem Valid.dataLength_content (h : b.Valid) (hmsg : b.hasMsg = true) :
    dataLength b.szMsgBuf = messageFormat.declared b.content :=
  (dataLength_take (h.hasMsg_iff.mp hmsg).1).symm

/-- Shifting cuts the message off the content. -/
theorem Valid.shift_of_nonneg (h : b.Valid) (hnonneg : 0 ≤ dataLength b.szMsgBuf)
    (hle : dataLength b.szMsgBuf ≤ b.lastPos) :
    ∃ b', b.shift = some b' ∧ b'.Valid ∧
      b'.content = b.content.drop (dataLength b.szMsgBuf).toNat := by
  have hlen := h.length_szMsgBuf
  have hlast := h.lastPos_le
  have hrest : dataLength b.szMsgBuf + (b.lastPos - dataLength b.szMsgBuf) ≤
      b.szMsgBuf.length := by omega
  obtain ⟨mem, hmem, hlength, htake⟩ :=
    Block.copyWithin_front hnonneg (by omega) hrest
  refine ⟨⟨mem, b.lastPos - dataLength b.szMsgBuf⟩, ?_, ?_, ?_⟩
  · dsimp only [shift]
    rw [hmem]
    rfl
  · refine ⟨hlength.trans hlen, ?_, ?_⟩
    · show 0 ≤ b.lastPos - dataLength b.szMsgBuf
      omega
    · show b.lastPos - dataLength b.szMsgBuf ≤ msgBufSize
      omega
  · show mem.take (b.lastPos - dataLength b.szMsgBuf).toNat =
      (b.szMsgBuf.take b.lastPos.toNat).drop (dataLength b.szMsgBuf).toNat
    rw [htake, List.drop_take]
    congr 1
    omega

/-- A negative length makes the copy read in front of the array. -/
theorem shift_of_neg (hneg : dataLength b.szMsgBuf < 0) : b.shift = none := by
  dsimp only [shift]
  rw [Block.copyWithin_eq_none_of_neg hneg]
  rfl

/-! ## The receive function

The shared body of `Client::RecvData` and of `Cell_Server::recvData` in `Server.h`, taken
apart as in `Server.RecvData`: one step for the read, one for each turn of the loop. -/

/-- The state of a receiving side with a fixed message buffer. -/
structure RecvState where
  phase : Phase
  buf : MsgBuf
  received : List UInt8
  delivered : List (List UInt8)
  deriving DecidableEq, Repr

/-- What can happen to it: a call with an outcome of `recv`, or a turn of the loop. -/
inductive RecvAct where
  | recv (o : Recv)
  | turn
  deriving DecidableEq, Repr

/-- The part before the loop.  On `-1` the caller closes the connection. -/
def enter (s : RecvState) (o : Recv) : RecvState :=
  match s.buf.append o with
  | none => { s with phase := .undefined }
  | some (ret, buf) =>
    if ret = -1 then { s with phase := .left }
    else { s with phase := .extract, buf := buf, received := s.received ++ o.received }

/-- A turn of the loop. -/
def turn (s : RecvState) : RecvState :=
  if s.buf.hasMsg then
    match s.buf.shift with
    | none => { s with phase := .undefined }
    | some buf =>
      { s with
        buf := buf
        delivered := s.delivered ++ [s.buf.szMsgBuf.take (dataLength s.buf.szMsgBuf).toNat] }
  else { s with phase := .idle }

/-- The receiving side over an array with some contents. -/
def receiver (mem : Vector UInt8 msgBufSize) : Machine RecvState RecvAct where
  init := ⟨.idle, .new mem, [], []⟩
  step s
    | .recv o =>
      if s.phase = .idle ∧ o.Legal s.buf.room then some (enter s o) else none
    | .turn => if s.phase = .extract then some (turn s) else none

/-- The framed receiver's state a receiving side stands for. -/
def RecvState.abs (s : RecvState) : FramedReceiver.State UInt8 :=
  ⟨s.phase, s.received, s.delivered, s.buf.content⟩

/-- The framed receiver's label: every read that brings nothing gives the connection up. -/
def RecvAct.abs : RecvAct → FramedReceiver.Act UInt8
  | .recv (.bytes chunk) => .arrive chunk
  | .recv (.fail _) => .quit
  | .turn => .turn

variable {s : RecvState}

theorem Valid.enter_bytes (h : s.buf.Valid) {chunk : List UInt8} (hphase : s.phase = .idle)
    (hlegal : (Recv.bytes chunk).Legal s.buf.room) :
    (enter s (.bytes chunk)).buf.Valid ∧
      (framedReceiver messageFormat msgBufSize).step s.abs (.arrive chunk) =
        some (enter s (.bytes chunk)).abs := by
  obtain ⟨buf, happend, hvalid, hcontent⟩ := h.append_bytes hlegal.2
  have henter : enter s (.bytes chunk) =
      { s with phase := .extract, buf := buf, received := s.received ++ chunk } := by
    simp [enter, happend, Recv.received]
  have hle : s.buf.content.length + chunk.length ≤ msgBufSize := by
    have hchunk : (chunk.length : ℤ) ≤ msgBufSize - s.buf.lastPos := hlegal.2
    have hlen := h.length_content
    omega
  rw [henter]
  refine ⟨hvalid, ?_⟩
  simp [framedReceiver, RecvState.abs, hphase, hle, hcontent]

theorem Valid.enter_fail (h : s.buf.Valid) {ret : ℤ} (hphase : s.phase = .idle) :
    (enter s (.fail ret)).buf.Valid ∧
      (framedReceiver messageFormat msgBufSize).step s.abs .quit =
        some (enter s (.fail ret)).abs := by
  have henter : enter s (.fail ret) = { s with phase := .left } := by simp [enter, append]
  rw [henter]
  refine ⟨h, ?_⟩
  simp [framedReceiver, RecvState.abs, hphase]

/-- A turn of the loop is a turn of the framed receiver. -/
theorem Valid.turn (h : s.buf.Valid) (hphase : s.phase = .extract) :
    (MsgBuf.turn s).buf.Valid ∧
      (framedReceiver messageFormat msgBufSize).step s.abs .turn =
        some (MsgBuf.turn s).abs := by
  by_cases hmsg : s.buf.hasMsg = true
  · have hcomplete := h.hasMsg_iff.mp hmsg
    have hlength := h.dataLength_content hmsg
    rcases lt_or_ge (messageFormat.declared s.buf.content) 0 with hneg | hnonneg
    · have hturn : MsgBuf.turn s = { s with phase := .undefined } := by
        simp [MsgBuf.turn, hmsg, shift_of_neg (hlength ▸ hneg)]
      rw [hturn]
      exact ⟨h, FramedReceiver.step_turn_undefined hphase hcomplete hneg⟩
    · have hle : dataLength s.buf.szMsgBuf ≤ s.buf.lastPos := by
        rw [hlength, ← h.length_content]
        exact hcomplete.2
      obtain ⟨buf, hshift, hvalid, hcontent⟩ := h.shift_of_nonneg (hlength ▸ hnonneg) hle
      have hsize : messageFormat.size s.buf.content = (dataLength s.buf.szMsgBuf).toNat := by
        rw [hlength]
        rfl
      have htake : s.buf.szMsgBuf.take (dataLength s.buf.szMsgBuf).toNat =
          s.buf.content.take (messageFormat.size s.buf.content) := by
        rw [hsize, content, List.take_take, Nat.min_eq_left (by omega)]
      have hturn : MsgBuf.turn s = { s with
          buf := buf
          delivered := s.delivered ++
            [s.buf.content.take (messageFormat.size s.buf.content)] } := by
        simp [MsgBuf.turn, hmsg, hshift, htake]
      rw [hturn]
      refine ⟨hvalid, ?_⟩
      rw [← hsize] at hcontent
      rw [FramedReceiver.step_turn_cut hphase hcomplete hnonneg]
      simp [FramedReceiver.State.cut, RecvState.abs, hcontent]
  · have hincomplete := mt h.hasMsg_iff.mpr hmsg
    have hturn : MsgBuf.turn s = { s with phase := .idle } := by simp [MsgBuf.turn, hmsg]
    rw [hturn]
    exact ⟨h, FramedReceiver.step_turn_exit hphase hincomplete⟩

/-- **The receiving side implements the framed receiver.** -/
def receiver.implementation (mem : Vector UInt8 msgBufSize) :
    FramedReceiver.Implementation (receiver mem) messageFormat msgBufSize where
  Good s := s.buf.Valid
  abs := RecvState.abs
  act := RecvAct.abs
  turn := .turn
  act_turn := rfl
  good_init := valid_new mem
  abs_init := by simp [receiver, framedReceiver, RecvState.abs]
  step := by
    intro s t i hs hstep
    cases i with
    | recv o =>
      obtain ⟨⟨hphase, hlegal⟩, rfl⟩ := Machine.guarded_eq_some.mp hstep
      cases o with
      | bytes chunk => exact hs.enter_bytes hphase hlegal
      | fail ret => exact hs.enter_fail hphase
    | turn =>
      obtain ⟨hphase, rfl⟩ := Machine.guarded_eq_some.mp hstep
      exact hs.turn hphase
  turn_enabled s _ hphase := ⟨_, if_pos hphase⟩

/-- A new receiving side can be led to whatever the framed receiver comes to from a chunk
in its buffer. -/
theorem receiver.exists_reachable (mem : Vector UInt8 msgBufSize) {chunk : List UInt8}
    (hne : 1 ≤ chunk.length) (hle : chunk.length ≤ msgBufSize) {k : ℕ}
    {u : FramedReceiver.State UInt8}
    (h : (framedReceiver messageFormat msgBufSize).iterate .turn k
      ⟨.extract, chunk, [], chunk⟩ = some u) :
    ∃ t, (receiver mem).Reachable t ∧ t.buf.Valid ∧ t.abs = u := by
  have hroom : (receiver mem).init.buf.room = msgBufSize := by
    simp [receiver, MsgBuf.new, MsgBuf.room]
  refine (receiver.implementation mem).exists_reachable_of_arrival
    (i := .recv (.bytes chunk)) rfl ⟨_, if_pos ⟨rfl, hne, ?_⟩⟩ h
  rw [hroom]
  exact Int.ofNat_le.mpr hle

end MsgBuf
end EasyTcpServer
