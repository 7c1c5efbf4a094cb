import EasyTcpServer.Buffer.MsgBuf
import EasyTcpServer.Server.RecvData

/-!
# What a hostile peer can do to the receive path

The loops of both receive functions ask whether the buffer holds at least `dataLength`
bytes.  They do not ask whether `dataLength` is at least the size of the header, or
positive, or nonnegative, although the peer writes it.

* A negative `dataLength` passes the test.  The copy that moves the rest to the front then
  starts reading in front of the buffer (`negative_length_leaves_buffer`).
* A `dataLength` of zero passes the test and removes nothing, so the loop never ends
  (`zero_length_spins`).

These are the only two ways: `receive_inBounds_iff` and `extraction_terminates_iff` say
exactly which streams keep the buffer in bounds and let the loop end.
-/

namespace EasyTcpServer

open FramedReceiver (Phase)

/-- The fill level lies in the receive buffer and no copy has left it. -/
def CellServer.RecvState.InBounds (s : CellServer.RecvState) : Prop :=
  s.phase ≠ .undefined ∧ 0 ≤ s.client.recvBuff.nLast ∧
    s.client.recvBuff.nLast ≤ s.client.recvBuff.nSize

/-- The fill level lies in the message buffer and no copy has left it. -/
def MsgBuf.RecvState.InBounds (s : MsgBuf.RecvState) : Prop :=
  s.phase ≠ .undefined ∧ 0 ≤ s.buf.lastPos ∧ s.buf.lastPos ≤ msgBufSize

namespace HostilePeer

open CellServer (newReceiver)

variable (sendMem : Vector UInt8 sendBuffSize) (recvMem : Vector UInt8 recvBuffSize)
  (sockfd : Socket) (mem : Vector UInt8 msgBufSize)

/-! ## A first chunk

What the peer sends first lies in the buffer when the loop starts. -/

variable (chunk : List UInt8)

theorem recvData_arrival (hne : 1 ≤ chunk.length) (hle : chunk.length ≤ recvBuffSize) :
    ∃ s, (newReceiver sendMem recvMem sockfd).Reachable s ∧ s.Good recvBuffSize ∧
      s.received = chunk ∧ s.phase = .extract ∧ s.client.recvBuff.content = chunk := by
  obtain ⟨s, hs, hgood, habs⟩ :=
    newReceiver.exists_reachable sendMem recvMem sockfd (k := 0) hne hle rfl
  exact ⟨s, hs, hgood, congrArg (·.received) habs, congrArg (·.phase) habs,
    congrArg (·.pending) habs⟩

theorem msgBuf_arrival (hne : 1 ≤ chunk.length) (hle : chunk.length ≤ msgBufSize) :
    ∃ s, (MsgBuf.receiver mem).Reachable s ∧ s.buf.Valid ∧
      s.received = chunk ∧ s.phase = .extract ∧ s.buf.content = chunk := by
  obtain ⟨s, hs, hvalid, habs⟩ := MsgBuf.receiver.exists_reachable mem hne hle (k := 0) rfl
  exact ⟨s, hs, hvalid, congrArg (·.received) habs, congrArg (·.phase) habs,
    congrArg (·.pending) habs⟩

/-! ## Bounds -/

theorem inBounds_iff_of_good {s : CellServer.RecvState} {N : ℕ} (h : s.Good N) :
    s.InBounds ↔ s.phase ≠ .undefined :=
  ⟨fun hs => hs.1, fun hs => ⟨hs, h.valid.nLast_nonneg, h.valid.nLast_le⟩⟩

theorem inBounds_iff_of_valid {s : MsgBuf.RecvState} (h : s.buf.Valid) :
    s.InBounds ↔ s.phase ≠ .undefined :=
  ⟨fun hs => hs.1, fun hs => ⟨hs, h.lastPos_nonneg, h.lastPos_le⟩⟩

theorem recvData_inBounds_iff {s : CellServer.RecvState}
    (hs : (newReceiver sendMem recvMem sockfd).Reachable s) :
    (∀ k t, (newReceiver sendMem recvMem sockfd).iterate .turn k s = some t → t.InBounds) ↔
      messageFormat.HeadersSatisfy (0 ≤ ·) s.received := by
  let I := newReceiver.implementation sendMem recvMem sockfd
  have hgood : s.Good recvBuffSize := (I.toRefinement.reachable hs).1
  refine Iff.trans ?_ (I.stays_defined_iff (by decide) hs)
  refine forall_congr' fun k => forall_congr' fun t => imp_congr_right fun ht => ?_
  exact inBounds_iff_of_good (N := recvBuffSize) (I.toRefinement.good_iterate k hgood ht)

theorem msgBuf_inBounds_iff {s : MsgBuf.RecvState} (hs : (MsgBuf.receiver mem).Reachable s) :
    (∀ k t, (MsgBuf.receiver mem).iterate .turn k s = some t → t.InBounds) ↔
      messageFormat.HeadersSatisfy (0 ≤ ·) s.received := by
  let I := MsgBuf.receiver.implementation mem
  have hvalid : s.buf.Valid := (I.toRefinement.reachable hs).1
  refine Iff.trans ?_ (I.stays_defined_iff (by decide) hs)
  refine forall_congr' fun k => forall_congr' fun t => imp_congr_right fun ht => ?_
  exact inBounds_iff_of_valid (I.toRefinement.good_iterate k hvalid ht)

/-- **When the receive buffers stay in bounds.**  For any state a run reaches: the loop,
run for any number of turns from there, keeps the fill level in the buffer and every copy
inside it exactly when no header met in the bytes received so far is negative.  This holds
for `Cell_Server::recvData` and for `Client::RecvData`. -/
theorem receive_inBounds_iff :
    (∀ s, (newReceiver sendMem recvMem sockfd).Reachable s →
      ((∀ k t, (newReceiver sendMem recvMem sockfd).iterate .turn k s = some t → t.InBounds) ↔
        messageFormat.HeadersSatisfy (0 ≤ ·) s.received)) ∧
    (∀ s, (MsgBuf.receiver mem).Reachable s →
      ((∀ k t, (MsgBuf.receiver mem).iterate .turn k s = some t → t.InBounds) ↔
        messageFormat.HeadersSatisfy (0 ≤ ·) s.received)) :=
  ⟨fun _ => recvData_inBounds_iff sendMem recvMem sockfd, fun _ => msgBuf_inBounds_iff mem⟩

/-- A message of five bytes and one byte more leave both buffers in bounds. -/
theorem receive_inBounds_five_bytes :
    (∃ s, (newReceiver (.replicate _ 0) (.replicate _ 0) 3).Reachable s ∧
      s.received = [5, 0, 0, 0, 9, 7] ∧
      ∀ k t, (newReceiver (.replicate _ 0) (.replicate _ 0) 3).iterate .turn k s = some t →
        t.InBounds) ∧
    (∃ s, (MsgBuf.receiver (.replicate _ 0)).Reachable s ∧
      s.received = [5, 0, 0, 0, 9, 7] ∧
      ∀ k t, (MsgBuf.receiver (.replicate _ 0)).iterate .turn k s = some t → t.InBounds) := by
  obtain ⟨hrecvData, hmsgBuf⟩ :=
    receive_inBounds_iff (.replicate _ 0) (.replicate _ 0) 3 (.replicate _ 0)
  constructor
  · obtain ⟨s, hs, -, hreceived, -⟩ := recvData_arrival (.replicate _ 0) (.replicate _ 0) 3
      [5, 0, 0, 0, 9, 7] (by decide) (by decide)
    refine ⟨s, hs, hreceived, (hrecvData s hs).mpr ?_⟩
    rw [hreceived]
    exact CellServer.headersSatisfy_five_bytes (by decide)
  · obtain ⟨s, hs, -, hreceived, -⟩ := msgBuf_arrival (.replicate _ 0)
      [5, 0, 0, 0, 9, 7] (by decide) (by decide)
    refine ⟨s, hs, hreceived, (hmsgBuf s hs).mpr ?_⟩
    rw [hreceived]
    exact CellServer.headersSatisfy_five_bytes (by decide)

/-- Four bytes from the peer, announcing a message of `-1` bytes, take the copy out of
either buffer. -/
theorem negative_length_leaves_buffer :
    (∃ s, (newReceiver (.replicate _ 0) (.replicate _ 0) 3).Reachable s ∧
      s.received = [255, 255, 0, 0] ∧ ¬ s.InBounds) ∧
    (∃ s, (MsgBuf.receiver (.replicate _ 0)).Reachable s ∧
      s.received = [255, 255, 0, 0] ∧ ¬ s.InBounds) := by
  have hrun (N : ℕ) : (framedReceiver messageFormat N).iterate .turn 1
      ⟨.extract, [255, 255, 0, 0], [], [255, 255, 0, 0]⟩ =
      some ⟨.undefined, [255, 255, 0, 0], [], [255, 255, 0, 0]⟩ := rfl
  constructor
  · obtain ⟨s, hs, -, habs⟩ := newReceiver.exists_reachable _ _ 3 (by decide) (by decide) (hrun _)
    exact ⟨s, hs, congrArg (·.received) habs, fun h => h.1 (congrArg (·.phase) habs)⟩
  · obtain ⟨s, hs, -, habs⟩ := MsgBuf.receiver.exists_reachable _ (by decide) (by decide) (hrun _)
    exact ⟨s, hs, congrArg (·.received) habs, fun h => h.1 (congrArg (·.phase) habs)⟩

/-! ## Termination -/

/-- The loop of `recvData` from a state inside it: it ends after at most as many turns as
the buffer holds bytes, and every turn that finds a message stays in the loop and lowers
the fill level. -/
def RecvDataTerminates (s : CellServer.RecvState) : Prop :=
  (∃ (k : ℕ) (t : CellServer.RecvState), k ≤ s.client.recvBuff.nLast ∧
      (newReceiver sendMem recvMem sockfd).iterate .turn k s = some t ∧
      t.phase = .extract ∧ t.client.hasMsg = false) ∧
    ∀ k t u, (newReceiver sendMem recvMem sockfd).iterate .turn k s = some t →
      t.phase = .extract → t.client.hasMsg = true →
      (newReceiver sendMem recvMem sockfd).step t .turn = some u →
      u.phase = .extract ∧ u.client.recvBuff.nLast < t.client.recvBuff.nLast

/-- The same for the loop over the fixed message buffer. -/
def MsgBufTerminates (s : MsgBuf.RecvState) : Prop :=
  (∃ (k : ℕ) (t : MsgBuf.RecvState), k ≤ s.buf.lastPos ∧
      (MsgBuf.receiver mem).iterate .turn k s = some t ∧
      t.phase = .extract ∧ t.buf.hasMsg = false) ∧
    ∀ k t u, (MsgBuf.receiver mem).iterate .turn k s = some t →
      t.phase = .extract → t.buf.hasMsg = true →
      (MsgBuf.receiver mem).step t .turn = some u →
      u.phase = .extract ∧ u.buf.lastPos < t.buf.lastPos

theorem recvDataTerminates_iff {s : CellServer.RecvState} (hgood : s.Good recvBuffSize)
    (hphase : s.phase = .extract) :
    RecvDataTerminates sendMem recvMem sockfd s ↔
      messageFormat.HeadersSatisfy (1 ≤ ·) s.client.recvBuff.content :=
  (newReceiver.implementation sendMem recvMem sockfd).terminates_iff
    (fun _ h => h.valid.length_content) (fun _ h => h.valid.hasMsg_iff) hgood hphase

theorem msgBufTerminates_iff {s : MsgBuf.RecvState} (hvalid : s.buf.Valid)
    (hphase : s.phase = .extract) :
    MsgBufTerminates mem s ↔ messageFormat.HeadersSatisfy (1 ≤ ·) s.buf.content :=
  (MsgBuf.receiver.implementation mem).terminates_iff
    (fun _ h => h.length_content) (fun _ h => h.hasMsg_iff) hvalid hphase

/-- **When the extraction loops end.**  For every content of the receive buffer, at any
fill level: the loop of `Cell_Server::recvData`, and likewise that of `Client::RecvData`,
lowers the fill level at every turn and ends exactly when every header it meets announces
at least one byte. -/
theorem extraction_terminates_iff :
    (∀ s : CellServer.RecvState, s.client.recvBuff.Valid →
      s.client.recvBuff.nSize = recvBuffSize → s.phase = .extract →
      (RecvDataTerminates sendMem recvMem sockfd s ↔
        messageFormat.HeadersSatisfy (1 ≤ ·) s.client.recvBuff.content)) ∧
    (∀ s : MsgBuf.RecvState, s.buf.Valid → s.phase = .extract →
      (MsgBufTerminates mem s ↔ messageFormat.HeadersSatisfy (1 ≤ ·) s.buf.content)) :=
  ⟨fun _ hvalid hsize => recvDataTerminates_iff sendMem recvMem sockfd ⟨hvalid, hsize⟩,
    fun _ => msgBufTerminates_iff mem⟩

/-- The loop over a message of five bytes and one byte more ends. -/
theorem extraction_terminates_five_bytes :
    (∃ s, s.client.recvBuff.content = [5, 0, 0, 0, 9, 7] ∧
      RecvDataTerminates (.replicate _ 0) (.replicate _ 0) 3 s) ∧
    (∃ s, s.buf.content = [5, 0, 0, 0, 9, 7] ∧ MsgBufTerminates (.replicate _ 0) s) := by
  obtain ⟨hrecvData, hmsgBuf⟩ :=
    extraction_terminates_iff (.replicate _ 0) (.replicate _ 0) 3 (.replicate _ 0)
  constructor
  · obtain ⟨s, -, hgood, -, hphase, hcontent⟩ :=
      recvData_arrival (.replicate _ 0) (.replicate _ 0) 3
        [5, 0, 0, 0, 9, 7] (by decide) (by decide)
    refine ⟨s, hcontent, (hrecvData s hgood.valid hgood.nSize hphase).mpr ?_⟩
    rw [hcontent]
    exact CellServer.headersSatisfy_five_bytes (by decide)
  · obtain ⟨s, -, hvalid, -, hphase, hcontent⟩ := msgBuf_arrival (.replicate _ 0)
      [5, 0, 0, 0, 9, 7] (by decide) (by decide)
    refine ⟨s, hcontent, (hmsgBuf s hvalid hphase).mpr ?_⟩
    rw [hcontent]
    exact CellServer.headersSatisfy_five_bytes (by decide)

/-- Four bytes of zero arrive, and no turn of the loop leads out of it. -/
theorem recvData_spins :
    ∃ s, (newReceiver sendMem recvMem sockfd).Reachable s ∧ s.received = [0, 0, 0, 0] ∧
      ∀ k, ∃ t, (newReceiver sendMem recvMem sockfd).iterate .turn k s = some t ∧
        t.phase = .extract ∧ t.client.recvBuff.content = [0, 0, 0, 0] := by
  have hcomplete : messageFormat.Complete [0, 0, 0, 0] := by decide
  have hzero : messageFormat.declared [0, 0, 0, 0] = 0 := by decide
  obtain ⟨s, hs, hgood, hreceived, hphase, hcontent⟩ :=
    recvData_arrival sendMem recvMem sockfd [0, 0, 0, 0] (by decide) (by decide)
  refine ⟨s, hs, hreceived, fun k => ?_⟩
  rw [← hcontent] at hcomplete hzero ⊢
  exact (newReceiver.implementation sendMem recvMem sockfd).spins_of_zero hgood hphase
    hcomplete hzero k

theorem msgBuf_spins :
    ∃ s, (MsgBuf.receiver mem).Reachable s ∧ s.received = [0, 0, 0, 0] ∧
      ∀ k, ∃ t, (MsgBuf.receiver mem).iterate .turn k s = some t ∧
        t.phase = .extract ∧ t.buf.content = [0, 0, 0, 0] := by
  have hcomplete : messageFormat.Complete [0, 0, 0, 0] := by decide
  have hzero : messageFormat.declared [0, 0, 0, 0] = 0 := by decide
  obtain ⟨s, hs, hvalid, hreceived, hphase, hcontent⟩ :=
    msgBuf_arrival mem [0, 0, 0, 0] (by decide) (by decide)
  refine ⟨s, hs, hreceived, fun k => ?_⟩
  rw [← hcontent] at hcomplete hzero ⊢
  exact (MsgBuf.receiver.implementation mem).spins_of_zero hvalid hphase hcomplete hzero k

/-- Four zero bytes from the peer keep either loop turning for ever. -/
theorem zero_length_spins :
    (∃ s, (newReceiver (.replicate _ 0) (.replicate _ 0) 3).Reachable s ∧
      s.received = [0, 0, 0, 0] ∧ ∀ k, ∃ t,
        (newReceiver (.replicate _ 0) (.replicate _ 0) 3).iterate .turn k s = some t ∧
        t.phase = .extract ∧ t.client.recvBuff.content = [0, 0, 0, 0]) ∧
    (∃ s, (MsgBuf.receiver (.replicate _ 0)).Reachable s ∧
      s.received = [0, 0, 0, 0] ∧ ∀ k, ∃ t,
        (MsgBuf.receiver (.replicate _ 0)).iterate .turn k s = some t ∧
        t.phase = .extract ∧ t.buf.content = [0, 0, 0, 0]) :=
  ⟨recvData_spins _ _ 3, msgBuf_spins _⟩

end HostilePeer
end EasyTcpServer
