import EasyTcpServer.Buffer.MsgBufFraming
import EasyTcpServer.Server.ReadySets
import EasyTcpServer.Server.RecvData

/-!
# A peer that closes

`recv` returns zero when the peer has closed and less when it fails.  `recvData` in `Server.h`
gives a client up on either.  After the receive buffer became a class the zero also stands for
"no room", which is no reason to give a client up, and the test in `recvData` is `nLen < 0`: a
peer that closes is not noticed.  The call succeeds, leaves everything as it was
(`closed_peer_unnoticed`), and `select` reports the descriptor again.

`peerCloseNoticed_iff` says that this is the only outcome of `recv` that is missed.
-/

namespace EasyTcpServer

open FramedReceiver (Phase)

/-- What `recv` returned. -/
def Recv.value : Recv → ℤ
  | .bytes chunk => chunk.length
  | .fail ret => ret

namespace PeerClose

open CellServer (newReceiver)

/-! ## What a call returns -/

section Calls

variable {σ ι : Type*} (M : Machine σ ι) (phase : σ → Phase) (turn : ι)

/-- A call of a receive function in the state `s`, with a read and its outcome as the label `i`,
returns a value: `-1` in front of the loop, or zero behind it.  A call whose loop does not end
returns nothing. -/
inductive Returns (s : σ) (i : ι) : ℤ → Prop where
  | failed {t : σ} : M.step s i = some t → phase t = .left → Returns s i (-1)
  | finished {t u : σ} {k : ℕ} : M.step s i = some t → phase t = .extract →
      M.iterate turn k t = some u → phase u = .idle → Returns s i 0

variable {M phase turn} in
theorem returns_neg_one_iff {s : σ} {i : ι} :
    Returns M phase turn s i (-1) ↔ ∃ t, M.step s i = some t ∧ phase t = .left := by
  constructor
  · intro h
    generalize hret : (-1 : ℤ) = ret at h
    induction h with
    | failed hstep hleft => exact ⟨_, hstep, hleft⟩
    | finished => omega
  · rintro ⟨t, hstep, hleft⟩
    exact .failed hstep hleft

end Calls

variable (sendMem : Vector UInt8 sendBuffSize) (recvMem : Vector UInt8 recvBuffSize)
  (sockfd : Socket) (mem : Vector UInt8 msgBufSize)

/-- `Cell_Server::recvData`, called in the state `s`, when `recv` reports `o`. -/
def CellReturns (s : CellServer.RecvState) (o : Recv) : ℤ → Prop :=
  Returns (newReceiver sendMem recvMem sockfd) (·.phase) .turn s (.recv o)

/-- `Cell_Server::recvData` of `Server.h`. -/
def ServerReturns (s : MsgBuf.RecvState) (o : Recv) : ℤ → Prop :=
  Returns (MsgBuf.serverRecvData mem) (·.phase) .turn s (.recv o)

variable {s : CellServer.RecvState} {o : Recv}

/-- `recvData` gives a client up when `recv` has failed, and not when the peer has closed. -/
theorem cellReturns_iff (hs : (newReceiver sendMem recvMem sockfd).Reachable s)
    (hidle : s.phase = .idle) (hroom : 0 < s.client.recvBuff.room)
    (hlegal : o.Legal s.client.recvBuff.room) :
    CellReturns sendMem recvMem sockfd s o (-1) ↔ o.value < 0 := by
  let I := CellServer.newReceiver.implementation sendMem recvMem sockfd
  have hgood : s.Good recvBuffSize := (I.toRefinement.reachable hs).1
  have hstep : (newReceiver sendMem recvMem sockfd).step s (.recv o) =
      some (CellServer.enter s o) := if_pos ⟨hidle, hroom, hlegal⟩
  -- the phase after the part in front of the loop
  have hphase : (CellServer.enter s o).phase = .left ↔ o.value < 0 := by
    cases o with
    | bytes chunk =>
      obtain ⟨-, -, habs⟩ :=
        FramedReceiver.step_arrive_cases (hgood.enter_bytes hidle hroom hlegal).2
      have hextract : (CellServer.enter s (.bytes chunk)).phase = .extract :=
        congrArg (·.phase) habs
      rw [hextract, Recv.value]
      exact iff_of_false (by decide) (by omega)
    | fail ret =>
      rcases lt_or_ge ret 0 with hneg | hnonneg
      · have hleft := (FramedReceiver.step_quit_cases (hgood.enter_fail hidle hroom hneg).2).2
        exact iff_of_true (congrArg (·.phase) hleft) hneg
      · obtain rfl : ret = 0 := le_antisymm hlegal hnonneg
        obtain ⟨-, -, habs⟩ := FramedReceiver.step_arrive_cases (hgood.enter_nothing hidle).2
        have hextract : (CellServer.enter s (.fail 0)).phase = .extract := congrArg (·.phase) habs
        rw [hextract, Recv.value]
        exact iff_of_false (by decide) (by omega)
  rw [CellReturns, returns_neg_one_iff, hstep, ← hphase]
  simp

/-- `recvData` of `Server.h` gives a client up on zero, too. -/
theorem serverReturns_iff {r : MsgBuf.RecvState} (hr : (MsgBuf.serverRecvData mem).Reachable r)
    (hidle : r.phase = .idle) (hlegal : o.Legal r.buf.room) :
    ServerReturns mem r o (-1) ↔ o.value ≤ 0 := by
  have hvalid : r.buf.Valid := ((MsgBuf.receiver.implementation mem).toRefinement.reachable hr).1
  have hstep : (MsgBuf.serverRecvData mem).step r (.recv o) = some (MsgBuf.enter r o) :=
    if_pos ⟨hidle, hlegal⟩
  have hphase : (MsgBuf.enter r o).phase = .left ↔ o.value ≤ 0 := by
    cases o with
    | bytes chunk =>
      obtain ⟨-, -, habs⟩ := FramedReceiver.step_arrive_cases (hvalid.enter_bytes hidle hlegal).2
      have hextract : (MsgBuf.enter r (.bytes chunk)).phase = .extract := congrArg (·.phase) habs
      have hne := hlegal.1
      rw [hextract, Recv.value]
      exact iff_of_false (by decide) (by omega)
    | fail ret =>
      have hquit : (framedReceiver messageFormat msgBufSize).step r.abs .quit =
          some (MsgBuf.enter r (.fail ret)).abs := (hvalid.enter_fail hidle).2
      have hleft := (FramedReceiver.step_quit_cases hquit).2
      exact iff_of_true (congrArg (·.phase) hleft) hlegal
  rw [ServerReturns, returns_neg_one_iff, hstep, ← hphase]
  simp

/-! ## The read pass -/

section Pass

open ReadySets

variable {fails : ClientPtr → Bool} {d : CellServer} {fds : List Socket}
  {ps : List (Socket × ClientPtr)} {r : CellServer × List ClientPtr} {c : ClientPtr}

/-- Serving clients only adds to the record. -/
theorem log_prefix_serveAll : d.log <+: (ps.foldl (serve .readData fails) d).log := by
  induction ps generalizing d with
  | nil => exact List.prefix_refl _
  | cons p ps ih =>
    refine List.IsPrefix.trans ?_ ih
    unfold serve
    split
    · exact (List.prefix_append _ _).trans (List.prefix_append _ _)
    · exact List.prefix_append _ _

/-- A client that fails has its `OnNetLeave`. -/
theorem leave_mem_serveAll {p : Socket × ClientPtr} (hp : p ∈ ps) (hfails : fails p.2 = true) :
    Event.leave p.2 ∈ (ps.foldl (serve .readData fails) d).log := by
  induction ps generalizing d with
  | nil => exact absurd hp List.not_mem_nil
  | cons q ps ih =>
    rcases List.mem_cons.mp hp with rfl | hp
    · have hprefix : (serve .readData fails d p).log <+:
          (ps.foldl (serve .readData fails) (serve .readData fails d p)).log := log_prefix_serveAll
      refine hprefix.subset ?_
      simp [serve, hfails, CellServer.onClientLeave]
    · exact ih hp

/-- Either version of `readData` serves some entries of the map in turn. -/
theorem exists_serveAll (hnodup : fds.Nodup)
    (hr : r = onArray .readData fails d fds ∨ onMap .readData fails d fds = some r) :
    ∃ ps : List (Socket × ClientPtr), (∀ p ∈ ps, d.clients[p.1]? = some p.2) ∧
      r = (ps.foldl (serve .readData fails) d, ps.map Prod.snd) := by
  rcases hr with rfl | hr
  · exact ⟨found d fds, fun p hp => (mem_found.mp hp).2, passArray_eq hnodup⟩
  · rw [onMap, passMap_eq] at hr
    obtain ⟨ps, hps, rfl⟩ := Option.map_eq_some_iff.mp hr
    refine ⟨ps, fun p hp => ?_, rfl⟩
    exact Std.TreeMap.mem_toList_iff_getElem?_eq_some.mp
      (List.mem_of_mem_filter ((visits_sublist hps).subset hp))

/-- **A client for which `recvData` has returned -1 is gone after the pass**, with its
`OnNetLeave`. -/
theorem removed_of_fails (hkeys : OwnKeys d) (hnodup : fds.Nodup)
    (hr : r = onArray .readData fails d fds ∨ onMap .readData fails d fds = some r)
    (hc : c ∈ r.2) (hfails : fails c = true) :
    r.1.clients[c.sockfd]? = none ∧ Event.leave c ∈ r.1.log := by
  obtain ⟨ps, hps, rfl⟩ := exists_serveAll hnodup hr
  obtain ⟨p, hp, rfl⟩ := List.mem_map.mp hc
  have hkey : p.1 = p.2.sockfd := (hkeys p.1 p.2 (hps p hp)).symm
  refine ⟨?_, leave_mem_serveAll hp hfails⟩
  rw [getElem?_serveAll, if_pos ⟨p, hp, hkey, hfails⟩]

end Pass

/-! ## What is noticed -/

/-- What is expected of `recvData` when `recv` reports `o`: it returns -1 exactly on zero and
less, as its predecessor does, and then the pass that has called it removes the client. -/
structure Noticed (s : CellServer.RecvState) (o : Recv) : Prop where
  returns : CellReturns sendMem recvMem sockfd s o (-1) ↔ o.value ≤ 0
  agrees : ∀ (mem : Vector UInt8 msgBufSize) (r : MsgBuf.RecvState),
    (MsgBuf.serverRecvData mem).Reachable r → r.phase = .idle → o.Legal r.buf.room →
      (CellReturns sendMem recvMem sockfd s o (-1) ↔ ServerReturns mem r o (-1))
  removed : ∀ (l : Lifecycle.State) (fds : List Socket) (fails : ClientPtr → Bool)
      (r : CellServer × List ClientPtr) (c : ClientPtr),
    serverThread.Reachable l → fds.Nodup →
      (r = ReadySets.onArray .readData fails l.data fds ∨
        ReadySets.onMap .readData fails l.data fds = some r) →
      c ∈ r.2 → (fails c = true ↔ CellReturns sendMem recvMem sockfd s o (-1)) →
      o.value ≤ 0 → r.1.clients[c.sockfd]? = none ∧ Event.leave c ∈ r.1.log

/-- **Which outcomes of `recv` are noticed.**  In every state of the receive buffer with room,
for every outcome of `recv`: `recvData` does what is expected of it exactly when `recv` has not
returned zero. -/
theorem peerCloseNoticed_iff (hs : (newReceiver sendMem recvMem sockfd).Reachable s)
    (hidle : s.phase = .idle) (hroom : 0 < s.client.recvBuff.room)
    (hlegal : o.Legal s.client.recvBuff.room) :
    Noticed sendMem recvMem sockfd s o ↔ o.value ≠ 0 := by
  have hreturns := cellReturns_iff sendMem recvMem sockfd hs hidle hroom hlegal
  constructor
  · intro hnoticed hzero
    have hneg := hreturns.mp (hnoticed.returns.mpr (le_of_eq hzero))
    omega
  · intro hne
    have hiff : CellReturns sendMem recvMem sockfd s o (-1) ↔ o.value ≤ 0 := by
      rw [hreturns]
      exact ⟨le_of_lt, fun hle => lt_of_le_of_ne hle hne⟩
    refine ⟨hiff, ?_, ?_⟩
    · intro mem r hr hridle hrlegal
      rw [hiff, serverReturns_iff mem hr hridle hrlegal]
    · intro l fds fails r c hl hnodup hr hc hfails hle
      exact removed_of_fails (ReadySets.ownKeys_of_reachable hl) hnodup hr hc
        (hfails.mpr (hiff.mpr hle))

theorem room_init_pos : 0 < (newReceiver sendMem recvMem sockfd).init.client.recvBuff.room := by
  have hroom : (newReceiver sendMem recvMem sockfd).init.client.recvBuff.room = recvBuffSize := by
    simp [newReceiver, CellServer.receiver, CellClient.new, CellBuffer.new, CellBuffer.room]
  rw [hroom]
  decide

/-- A failing `recv` on a new connection. -/
theorem peerCloseNoticed_error :
    Noticed (.replicate _ 0) (.replicate _ 0) 3
        (newReceiver (.replicate _ 0) (.replicate _ 0) 3).init (.fail (-1)) ↔
      (Recv.fail (-1)).value ≠ 0 :=
  peerCloseNoticed_iff (.replicate _ 0) (.replicate _ 0) 3 .init rfl
    (room_init_pos _ _ _) (by show (-1 : ℤ) ≤ 0; decide)

/-- **A peer that has closed is not noticed**: the call returns zero and leaves the client as it
was. -/
theorem closed_peer_unnoticed (hidle : s.phase = .idle) (hroom : 0 < s.client.recvBuff.room)
    (hmsg : s.client.hasMsg = false) :
    ((newReceiver sendMem recvMem sockfd).step s (.recv (.fail 0))).bind
      ((newReceiver sendMem recvMem sockfd).step · .turn) = some s := by
  have henter : CellServer.enter s (.fail 0) = { s with phase := .extract } := by
    simp [CellServer.enter, CellClient.recvData, CellBuffer.readForSocket, hroom, Recv.received]
  have hstep : (newReceiver sendMem recvMem sockfd).step s (.recv (.fail 0)) =
      some { s with phase := .extract } := by
    rw [← henter]
    exact if_pos ⟨hidle, hroom, le_refl _⟩
  rw [hstep, Option.bind_some]
  simp [newReceiver, CellServer.receiver, CellServer.turn, hmsg, ← hidle]

/-- On a new connection `recv` returns zero, and `recvData` does not return -1. -/
theorem closed_peer_missed :
    ¬ ∀ (s : CellServer.RecvState) (o : Recv),
      (newReceiver (.replicate _ 0) (.replicate _ 0) 3).Reachable s → s.phase = .idle →
        0 < s.client.recvBuff.room → o.Legal s.client.recvBuff.room →
          Noticed (.replicate _ 0) (.replicate _ 0) 3 s o := by
  intro hall
  have hroom := room_init_pos (.replicate _ 0) (.replicate _ 0) 3
  have hnoticed := hall _ (.fail 0) .init rfl hroom (le_refl _)
  have hneg := (cellReturns_iff _ _ _ .init rfl hroom (le_refl _)).mp
    (hnoticed.returns.mpr (le_refl _))
  exact absurd hneg (lt_irrefl _)

end PeerClose
end EasyTcpServer
