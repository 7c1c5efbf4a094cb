import EasyTcpServer.ServerH.Server

/-!
# Which sockets the server of `Server.h` closes

Every `Cell_Server` has a copy of the listening socket, and closes it with those of its clients;
the server closes it as well.  A client that leaves is erased from `_clients`, and its socket is
not closed.

* `ClosedOnce`: what is passed to `close` was obtained and has not been closed since.
* `Kept`: the steps after which this still holds, no client was erased whose socket is open, and
  no failure of `select` has closed the socket of anybody else.
* `closed_once`: the law of all runs of such steps, and that every other step breaks it.
-/

namespace EasyTcpServer
namespace ServerH

/-- The protocol of a descriptor: it is obtained and closed in turn. -/
def socketProtocol : Protocol Socket Event Bool where
  about
    | .obtain sockfd => sockfd
    | .close sockfd => sockfd
  start := false
  next
    | false, .obtain _ => some true
    | true, .close _ => some false
    | _, _ => none

theorem phase_append_obtain (log : List Event) (sockfd : Socket) :
    socketProtocol.phase sockfd (log ++ [.obtain sockfd]) =
      (socketProtocol.phase sockfd log).bind (socketProtocol.next · (.obtain sockfd)) :=
  Protocol.phase_append_singleton rfl

/-- **No socket is closed twice**: the events about a descriptor follow the protocol. -/
def ClosedOnce (log : List Event) : Prop :=
  ∀ sockfd, (socketProtocol.phase sockfd log).isSome = true

variable {n : ℕ} {s t : State n} {i : Act n} {k : Fin (n + 1)} {sock sockfd : Socket}

/-- The steps that keep the law: no client leaves, no `select` fails, and nothing that closes the
listening socket is called when it is not open any more.  The destructor of a `Cell_Server` does
not come to that. -/
def Kept (s : State n) : Act n → Prop
  | .cell _ .selectFails | .cell _ (.leave _) => False
  | .cell _ .closeSock | .closeSock | .destroy => s.sock ∈ s.fds
  | _ => True

instance (s : State n) : ∀ i, Decidable (Kept s i)
  | .accept _ | .addClinetToCellserver | .compare | .addClient => .isTrue trivial
  | .closeSock | .destroy | .cell _ .closeSock => inferInstanceAs (Decidable (s.sock ∈ s.fds))
  | .cell _ .selectFails | .cell _ (.leave _) => .isFalse id
  | .cell _ .merge | .cell _ .select | .cell _ .ready | .cell _ .passed | .cell _ .destroy =>
    .isTrue trivial

/-- What is claimed of a step. -/
structure StepLaw (s t : State n) (i : Act n) : Prop where
  /-- The socket of a client that is erased has been closed. -/
  erased : ∀ k, ∀ sockfd ∈ (s.cellservers k).clients,
    sockfd ∉ (t.cellservers k).clients → sockfd ∉ t.fds
  /-- When `select` fails, nothing is closed but the sockets of the `Cell_Server`'s clients. -/
  failure : ∀ k, i = .cell k .selectFails → ∀ sockfd,
    .close sockfd ∈ t.log.drop s.log.length → sockfd ∈ (s.cellservers k).clients

/-- The log tells which descriptors are open. -/
def LogOk (s : State n) : Prop :=
  ∀ sockfd, socketProtocol.phase sockfd s.log = some (decide (sockfd ∈ s.fds))

theorem LogOk.closedOnce (h : LogOk s) : ClosedOnce s.log := by
  intro sockfd
  rw [h sockfd]
  rfl

theorem LogOk.accept (h : LogOk s) (hnew : sockfd ∉ s.fds) {p : Option ClientSocketPtr} :
    LogOk { s with
      accepted := p, fds := insert sockfd s.fds, log := s.log ++ [.obtain sockfd] } := by
  intro d
  dsimp only
  by_cases hd : sockfd = d
  · subst hd
    rw [phase_append_obtain, h sockfd, decide_eq_false hnew]
    simp [socketProtocol]
  · rw [Protocol.phase_append_of_ne (by simpa [socketProtocol] using hd), h d]
    simp [Ne.symm hd]

/-- Closing distinct sockets. -/
theorem LogOk.phase_closeAll (h : LogOk s) {sockets : List Socket} (hnodup : sockets.Nodup)
    (sockfd : Socket) : socketProtocol.phase sockfd (closeAll s sockets).log =
      if sockfd ∈ sockets then (if sockfd ∈ s.fds then some false else none)
      else some (decide (sockfd ∈ s.fds)) := by
  show socketProtocol.phase sockfd (s.log ++ sockets.map .close) = _
  rw [Protocol.phase_append_map (fun _ => rfl) hnodup, h sockfd, Option.bind_some]
  by_cases hfds : sockfd ∈ s.fds <;> simp [hfds, socketProtocol]

/-- It keeps the protocol exactly when they all are open. -/
theorem LogOk.closedOnce_closeAll_iff (h : LogOk s) {sockets : List Socket}
    (hnodup : sockets.Nodup) :
    ClosedOnce (closeAll s sockets).log ↔ ∀ sockfd ∈ sockets, sockfd ∈ s.fds := by
  unfold ClosedOnce
  simp only [h.phase_closeAll hnodup]
  refine forall_congr' fun sockfd => ?_
  by_cases hin : sockfd ∈ sockets
  · by_cases hfds : sockfd ∈ s.fds <;> simp [hin, hfds]
  · simp [hin]

theorem LogOk.closeAll (h : LogOk s) {sockets : List Socket} (hnodup : sockets.Nodup)
    (hopen : ∀ sockfd ∈ sockets, sockfd ∈ s.fds) : LogOk (closeAll s sockets) := by
  intro sockfd
  rw [h.phase_closeAll hnodup]
  show _ = some (decide (sockfd ∈ s.fds \ sockets.toFinset))
  by_cases hin : sockfd ∈ sockets
  · simp [hin, hopen sockfd hin]
  · simp [hin]

/-! ## One step -/

/-- The sockets that `Close_sock` of a `Cell_Server` passes to `close` are distinct, and those
of its clients are open. -/
theorem Inv.nodup_closed (h : Inv s) (k : Fin (n + 1)) :
    ((s.cellservers k).clients.keys ++ [s.sock]).Nodup := by
  refine List.nodup_append'.mpr ⟨Std.TreeMap.nodup_keys, List.nodup_singleton _,
    List.disjoint_singleton.mpr fun hin => ?_⟩
  exact (h.opened k s.sock (List.mem_append_left _ hin)).2 rfl

theorem Inv.open_closed_iff (h : Inv s) (k : Fin (n + 1)) :
    (∀ sockfd ∈ (s.cellservers k).clients.keys ++ [s.sock], sockfd ∈ s.fds) ↔
      s.sock ∈ s.fds := by
  constructor
  · intro hall
    exact hall s.sock (List.mem_append_right _ (List.mem_singleton_self _))
  · intro hsock sockfd hin
    rw [List.mem_append, List.mem_singleton] at hin
    obtain hin | rfl := hin
    · exact (h.opened k sockfd (List.mem_append_left _ hin)).1
    · exact hsock

/-- `Close_sock` of a `Cell_Server` closes a socket twice exactly when the listening socket is
closed already. -/
theorem closedOnce_cellCloseSock_iff (h : Inv s) (hlog : LogOk s) (k : Fin (n + 1)) :
    ClosedOnce (cellCloseSock s k).log ↔ s.sock ∈ s.fds := by
  have hlog' : (cellCloseSock s k).log = (closeAll s (s.cellservers k).closeSock.2).log := rfl
  rw [hlog', h.closed k, hlog.closedOnce_closeAll_iff (h.nodup_closed k), h.open_closed_iff]

theorem logOk_cellCloseSock (h : Inv s) (hlog : LogOk s) (k : Fin (n + 1))
    (hsock : s.sock ∈ s.fds) : LogOk (cellCloseSock s k) := by
  have hall := hlog.closeAll (h.nodup_closed k) ((h.open_closed_iff k).mpr hsock)
  rw [← h.closed k] at hall
  exact hall

/-- So does `Close_sock` of the server. -/
theorem closedOnce_closeSock_iff (h : Inv s) (hlog : LogOk s) :
    ClosedOnce (closeSock s).log ↔ s.sock ∈ s.fds := by
  rw [closeSock, if_pos h.valid, hlog.closedOnce_closeAll_iff (List.nodup_singleton _)]
  simp

theorem logOk_closeSock (h : Inv s) (hlog : LogOk s) (hsock : s.sock ∈ s.fds) :
    LogOk (closeSock s) := by
  rw [closeSock, if_pos h.valid]
  exact hlog.closeAll (List.nodup_singleton _) (by simpa using hsock)

/-- What is claimed of a step, and what is kept for the next. -/
def Outcome (s t : State n) (i : Act n) : Prop :=
  ((ClosedOnce t.log ∧ StepLaw s t i) ↔ Kept s i) ∧ (Kept s i → LogOk t)

/-- A step that closes nothing and erases nobody. -/
theorem Outcome.of_logOk (hlog : LogOk t)
    (hclients : ∀ k, ∀ sockfd ∈ (s.cellservers k).clients, sockfd ∈ (t.cellservers k).clients)
    (hi : ∀ k, i ≠ .cell k .selectFails) (hkept : Kept s i) : Outcome s t i := by
  refine ⟨iff_of_true ⟨hlog.closedOnce, ?_, fun k hk => absurd hk (hi k)⟩ hkept, fun _ => hlog⟩
  intro k sockfd hin hout
  exact absurd (hclients k sockfd hin) hout

/-- A step that closes the listening socket, if it erases nobody else's clients. -/
theorem Outcome.of_iff (hclosed : ClosedOnce t.log ↔ s.sock ∈ s.fds)
    (herased : ∀ k, ∀ sockfd ∈ (s.cellservers k).clients,
      sockfd ∉ (t.cellservers k).clients → sockfd ∉ t.fds)
    (hi : ∀ k, i ≠ .cell k .selectFails) (hkept : Kept s i ↔ s.sock ∈ s.fds)
    (hlog : s.sock ∈ s.fds → LogOk t) : Outcome s t i := by
  refine ⟨?_, fun hk => hlog (hkept.mp hk)⟩
  rw [hkept, ← hclosed]
  exact and_iff_left ⟨herased, fun k hk => absurd hk (hi k)⟩

/-- The clients that `Close_sock` erases have been closed by it. -/
theorem Inv.not_mem_fds_cellCloseSock (h : Inv s) {j k : Fin (n + 1)}
    (hin : sockfd ∈ (s.cellservers j).clients)
    (hout : sockfd ∉ ((cellCloseSock s k).cellservers j).clients) :
    sockfd ∉ (cellCloseSock s k).fds := by
  rw [cellCloseSock_apply] at hout
  split_ifs at hout with hjk
  · subst hjk
    show sockfd ∉ s.fds \ (s.cellservers j).closeSock.2.toFinset
    rw [h.closed j, Finset.mem_sdiff, List.mem_toFinset, not_and_not_right]
    exact fun _ => List.mem_append_left _ (Std.TreeMap.mem_keys.mpr hin)
  · exact absurd hin hout

/-- **A client that leaves** is erased while its socket is open. -/
theorem Inv.not_stepLaw_leave (h : Inv s) (hin : sockfd ∈ (s.cellservers k).clients)
    {count : ℤ} : ¬ StepLaw s
      { s.setCell k ((s.cellservers k).erase sockfd) with clientCount := count }
      (.cell k (.leave sockfd)) := by
  intro hlaw
  refine hlaw.erased k sockfd hin ?_ (h.opened k sockfd (CellServer.mem_sockets_of_mem hin)).1
  show sockfd ∉ ((s.setCell k ((s.cellservers k).erase sockfd)).cellservers k).clients
  rw [setCell_apply, if_pos rfl]
  simp [CellServer.erase]

/-- **A failure of `select`** closes the listening socket, which is nobody's. -/
theorem Inv.not_stepLaw_selectFails (h : Inv s) :
    ¬ StepLaw s ((cellCloseSock s k).setLoc k .failed) (.cell k .selectFails) := by
  intro hlaw
  have hclosed : .close s.sock ∈
      ((cellCloseSock s k).setLoc k .failed).log.drop s.log.length := by
    show Event.close s.sock ∈
      (s.log ++ (s.cellservers k).closeSock.2.map Event.close).drop s.log.length
    rw [List.drop_left, h.closed k]
    simp
  have hin := hlaw.failure k rfl s.sock hclosed
  exact (h.opened k s.sock (CellServer.mem_sockets_of_mem hin)).2 rfl

theorem LogOk.cellOutcome (hlog : LogOk s) (h : Inv s) {a : CellAct}
    (heffect : CellEffect s k t a) : Outcome s t (.cell k a) := by
  cases heffect with
  | merge _ ht =>
    rw [ht]
    refine .of_logOk hlog (fun j sockfd hin => ?_) (fun _ hi => (by cases hi)) trivial
    rw [setCell_apply]
    split_ifs with hjk
    · rw [← hjk]
      exact CellServer.mem_clients_merge hin
    · exact hin
  | select _ _ ht =>
    rw [ht]
    exact .of_logOk hlog (fun _ _ hin => hin) (fun _ hi => (by cases hi)) trivial
  | selectFails _ ht =>
    rw [ht]
    exact ⟨iff_of_false (fun hlaw => h.not_stepLaw_selectFails hlaw.2) id, False.elim⟩
  | ready _ ht =>
    rw [ht]
    exact .of_logOk hlog (fun _ _ hin => hin) (fun _ hi => (by cases hi)) trivial
  | leave _ hin ht =>
    rw [ht]
    exact ⟨iff_of_false (fun hlaw => h.not_stepLaw_leave hin hlaw.2) id, False.elim⟩
  | passed _ ht =>
    rw [ht]
    exact .of_logOk hlog (fun _ _ hin => hin) (fun _ hi => (by cases hi)) trivial
  | closeSock ht =>
    rw [ht]
    exact .of_iff (closedOnce_cellCloseSock_iff h hlog k)
      (fun _ _ hin hout => h.not_mem_fds_cellCloseSock hin hout)
      (fun _ hi => (by cases hi)) Iff.rfl (logOk_cellCloseSock h hlog k)
  | destroy ht =>
    rw [ht]
    exact .of_logOk hlog (fun _ _ hin => hin) (fun _ hi => (by cases hi)) trivial

/-- **One step.** -/
theorem LogOk.outcome (hlog : LogOk s) (h : Inv s) (hstep : step s i = some t) :
    Outcome s t i := by
  cases effect_of_step hstep with
  | accept _ _ hnew ht =>
    rw [ht]
    exact .of_logOk (hlog.accept hnew) (fun _ _ hin => hin) (fun _ hi => (by cases hi)) trivial
  | addClinetToCellserver _ _ ht =>
    rw [ht]
    exact .of_logOk hlog (fun _ _ hin => hin) (fun _ hi => (by cases hi)) trivial
  | compare q _ _ ht =>
    rw [ht]
    exact .of_logOk hlog (fun _ _ hin => hin) (fun _ hi => (by cases hi)) trivial
  | addClient q p _ _ _ ht =>
    rw [ht]
    refine .of_logOk hlog (fun k sockfd hin => ?_) (fun _ hi => (by cases hi)) trivial
    rwa [clients_addClientTo]
  | closeSock ht =>
    rw [ht]
    exact .of_iff (closedOnce_closeSock_iff h hlog) (fun _ _ hin hout => absurd hin hout)
      (fun _ hi => (by cases hi)) Iff.rfl (logOk_closeSock h hlog)
  | destroy ht =>
    rw [ht]
    exact .of_iff (closedOnce_closeSock_iff h hlog) (fun _ _ hin hout => absurd hin hout)
      (fun _ hi => (by cases hi)) Iff.rfl (logOk_closeSock h hlog)
  | cell heffect => exact hlog.cellOutcome h heffect

/-! ## Runs -/

end ServerH
end EasyTcpServer
