import EasyTcpServer.Buffer.MsgBuf

/-!
# Framing of the fixed message buffer

`_szMsgBuf` is larger than any message: `dataLength` is a short, so no message has more than
32767 bytes, and the array has 51200.  A receiving side that has returned from its loop holds
less than one message.  There is always room to read more, and a `recv` that brings nothing has
nothing to do with a full array.
-/

namespace EasyTcpServer

/-- No short is larger than `SHRT_MAX`. -/
theorem short_le (lo hi : UInt8) : short lo hi ≤ 32767 := by
  have hlt : (hi.toBitVec ++ lo.toBitVec).toInt < 2 ^ (8 + 8 - 1) := BitVec.toInt_lt
  unfold short
  omega

namespace MsgBuf

/-- The array, after a call has returned, holds less than a message. -/
theorem Valid.lastPos_le_of_not_complete {b : MsgBuf} (h : b.Valid)
    (hincomplete : ¬ messageFormat.Complete b.content) : b.lastPos ≤ 32766 := by
  have hlt : b.content.length < 32767 :=
    Format.length_lt_of_not_complete hincomplete (by decide) fun _ _ => short_le _ _
  have hlen := h.length_content
  omega

variable (mem : Vector UInt8 msgBufSize)

/-- `Client::RecvData`, on `_szMsgBuf` and `_lastPos`. -/
def clientRecvData : Machine RecvState RecvAct := receiver mem

/-- `Cell_Server::recvData` in `Server.h`, on `msgBuf()` and `get_lastRecvPos()` of the
client.  `onRecvCount`, which it calls behind `recv`, touches neither. -/
def serverRecvData : Machine RecvState RecvAct := receiver mem

/-- What is expected of a receiving side: no copy leaves the array; a call ends; between calls
the messages handed to `onNetMsg` are the parse of all bytes received, the array holds the
remainder, and there is room for the next `recv`.  Whatever `recv` brings then is taken: a
chunk that fits by a call that comes to its end, and a failure by giving up. -/
structure Framed (M : Machine RecvState RecvAct) (s : RecvState) : Prop where
  defined : s.phase ≠ .undefined
  ends : s.phase = .extract → ∃ k t, M.iterate .turn k s = some t ∧ t.phase = .idle
  parse : s.phase ≠ .extract → messageFormat.parse s.received = (s.delivered, s.buf.content)
  lastPos_le : s.phase ≠ .extract → s.buf.lastPos ≤ 32766
  room_ge : s.phase ≠ .extract → 18434 ≤ s.buf.room
  takes : s.phase = .idle → ∀ chunk, (Recv.bytes chunk).Legal s.buf.room →
    messageFormat.HeadersSatisfy (1 ≤ ·) (s.received ++ chunk) →
    ∃ t k u, M.step s (.recv (.bytes chunk)) = some t ∧ M.iterate .turn k t = some u ∧
      u.phase = .idle ∧ u.received = s.received ++ chunk ∧
      messageFormat.parse u.received = (u.delivered, u.buf.content)
  gives_up : s.phase = .idle → ∀ ret ≤ 0,
    M.step s (.recv (.fail ret)) = some { s with phase := .left }

theorem receiver_framed {s : RecvState} (hs : (receiver mem).Reachable s)
    (hheaders : messageFormat.HeadersSatisfy (1 ≤ ·) s.received) : Framed (receiver mem) s := by
  have hpos : messageFormat.HeadersSatisfy (0 < ·) s.received := hheaders
  let I := receiver.implementation mem
  obtain ⟨hends, hparse⟩ := I.framing (by decide) hs hpos
  have hvalid : s.buf.Valid := (I.toRefinement.reachable hs).1
  have hconsistent := I.consistent (by decide) hs
  have hnonneg := hpos.mono fun _ h => le_of_lt h
  have hlast (hphase : s.phase ≠ .extract) : s.buf.lastPos ≤ 32766 :=
    hvalid.lastPos_le_of_not_complete (hconsistent.not_complete hnonneg hphase)
  refine ⟨hconsistent.phase_ne_undefined hnonneg, hends, hparse, hlast, fun hphase => ?_,
    fun hidle chunk hlegal hheaders => ?_, fun hidle ret hret => ?_⟩
  · have hroom : s.buf.room = 51200 - s.buf.lastPos := rfl
    have hle := hlast hphase
    omega
  · have hstep : (receiver mem).step s (.recv (.bytes chunk)) = some (enter s (.bytes chunk)) :=
      if_pos ⟨hidle, hlegal⟩
    obtain ⟨k, u, hturns, hend, hreceived, hparse⟩ :=
      I.exists_call (by decide) hs rfl hstep hheaders
    have hsame : u.received = s.received ++ chunk := hreceived
    exact ⟨_, k, u, hstep, hturns, hend, hsame, hsame ▸ hparse⟩
  · have henter : enter s (.fail ret) = { s with phase := .left } := by simp [enter, append]
    exact (if_pos ⟨hidle, hret⟩).trans (congrArg some henter)

/-- **Framing of the 51200-byte receivers.**  Whatever way `recv` cuts the stream, provided
every header met announces at least one byte, both receive functions take every chunk, keep to
the reference parser, and ask the next `recv` for at least 18434 bytes. -/
theorem recvData_framed {s : RecvState}
    (hheaders : messageFormat.HeadersSatisfy (1 ≤ ·) s.received) :
    ((clientRecvData mem).Reachable s → Framed (clientRecvData mem) s) ∧
      ((serverRecvData mem).Reachable s → Framed (serverRecvData mem) s) :=
  ⟨fun hs => receiver_framed mem hs hheaders, fun hs => receiver_framed mem hs hheaders⟩

/-- A message of five bytes and the byte behind it, in one read. -/
theorem recvData_framed_five_bytes :
    ∃ s, (clientRecvData (.replicate _ 0)).Reachable s ∧
      (serverRecvData (.replicate _ 0)).Reachable s ∧
      s.received = [5, 0, 0, 0, 9, 7] ∧ s.delivered = [[5, 0, 0, 0, 9]] ∧
      Framed (clientRecvData (.replicate _ 0)) s ∧ Framed (serverRecvData (.replicate _ 0)) s := by
  have hrun : (framedReceiver messageFormat msgBufSize).iterate .turn 2
      ⟨.extract, [5, 0, 0, 0, 9, 7], [], [5, 0, 0, 0, 9, 7]⟩ =
      some ⟨.idle, [5, 0, 0, 0, 9, 7], [[5, 0, 0, 0, 9]], [7]⟩ := by decide
  obtain ⟨s, hs, -, habs⟩ :=
    receiver.exists_reachable (.replicate _ 0) (by decide) (by decide) hrun
  have hreceived : s.received = [5, 0, 0, 0, 9, 7] := congrArg (·.received) habs
  have hheaders : messageFormat.HeadersSatisfy (1 ≤ ·) s.received := by
    rw [hreceived, Format.headersSatisfy_iff]
    refine ⟨fun _ => by decide, fun _ _ => ?_⟩
    rw [Format.headersSatisfy_iff]
    exact ⟨fun h => absurd h (by decide), fun h => absurd h.1 (by decide)⟩
  obtain ⟨hclient, hserver⟩ := recvData_framed (.replicate _ 0) hheaders
  exact ⟨s, hs, hs, hreceived, congrArg (·.delivered) habs, hclient hs, hserver hs⟩

end MsgBuf
end EasyTcpServer
