import EasyTcpServer.Server.CheckTime

/-!
# The sets `select` is called with

The sets of descriptors are built when `_client_change` is up, and copied from `_fd_Read_bak`
when it is not.  Everything that takes a client out of the map or puts one into it raises the
flag, with the exception of `ClearClients`; but behind that the map is empty until the next
merge.

* `Cached`: what a flag that is down stands for.
* `select_sets`: in every run, at every call of `select`, the three sets are the sockets of the
  clients in the map, and `_max_sock` is the largest of them.
-/

namespace EasyTcpServer
namespace ServerLoop

open CellServer (Loc ClearLoc Env)
open CellThread (Worker)

/-- `FD_SET` into a set without a bound. -/
def insertFd (fds : List Socket) (sockfd : Socket) : List Socket :=
  if sockfd ∈ fds then fds else fds ++ [sockfd]

theorem mem_foldl_insertFd {fds socks : List Socket} {k : Socket} :
    k ∈ socks.foldl insertFd fds ↔ k ∈ fds ∨ k ∈ socks := by
  induction socks generalizing fds with
  | nil => simp
  | cons sockfd socks ih =>
    rw [List.foldl_cons, ih, insertFd, List.mem_cons]
    split_ifs with hin
    · refine ⟨Or.imp_right .inr, ?_⟩
      rintro (hk | rfl | hk)
      · exact .inl hk
      · exact .inl hin
      · exact .inr hk
    · rw [List.mem_append, List.mem_singleton, or_assoc]

/-! ## `_max_sock` -/

theorem isGreatest_foldl_max (m : Socket) (socks : List Socket) :
    IsGreatest {k | k = m ∨ k ∈ socks} (socks.foldl max m) := by
  induction socks generalizing m with
  | nil => exact ⟨.inl rfl, fun k hk => (hk.resolve_right List.not_mem_nil).le⟩
  | cons sockfd socks ih =>
    obtain ⟨hmem, hle⟩ := ih (max m sockfd)
    rw [List.foldl_cons]
    refine ⟨?_, ?_⟩
    · rcases hmem with heq | hin
      · rw [heq]
        rcases max_choice m sockfd with hmax | hmax <;> rw [hmax]
        · exact .inl rfl
        · exact .inr List.mem_cons_self
      · exact .inr (List.mem_cons_of_mem _ hin)
    · intro k hk
      have hstart := hle (.inl rfl)
      rcases hk with rfl | hk
      · exact (le_max_left _ _).trans hstart
      · rcases List.mem_cons.mp hk with rfl | hk
        · exact (le_max_right _ _).trans hstart
        · exact hle (.inr hk)

theorem isGreatest_scanMaxSock {socks : List Socket} (h : socks ≠ []) :
    IsGreatest {k | k ∈ socks} (CellServer.scanMaxSock socks) := by
  obtain ⟨sockfd, socks, rfl⟩ := List.exists_cons_of_ne_nil h
  have hscan : CellServer.scanMaxSock (sockfd :: socks) =
      (sockfd :: socks).foldl max sockfd := by
    unfold CellServer.scanMaxSock
    congr 1
    funext m k
    exact (max_def_lt m k).symm
  have hgreatest := isGreatest_foldl_max sockfd (sockfd :: socks)
  have hset : {k | k = sockfd ∨ k ∈ sockfd :: socks} = {k | k ∈ sockfd :: socks} := by
    ext k
    simp
  rw [hscan, ← hset]
  exact hgreatest

/-! ## The invariant -/

/-- The set and the maximum are those of the clients in the map. -/
structure Watched (d : CellServer) (fds : List Socket) (maxSock : Socket) : Prop where
  fds : ∀ k, k ∈ fds ↔ k ∈ d.sockets
  max : IsGreatest {k | k ∈ d.sockets} maxSock

/-- What it means that `_client_change` is down. -/
def Cached (d : CellServer) (maxSock : Socket) : Prop :=
  d.clientChange = false → d.clients.isEmpty = true ∨ Watched d d.fdReadBak maxSock

/-- What holds in front of `select`. -/
structure AtSelect (s : State) (fds : List Socket) : Prop where
  clients : s.thread.data.clients.isEmpty = false
  change : s.thread.data.clientChange = false
  fdReadBak : fds = s.thread.data.fdReadBak
  fdRead : s.fdRead = s.thread.data.fdReadBak
  fdWrite : s.fdWrite = s.thread.data.fdReadBak
  fdExc : s.fdExc = s.thread.data.fdReadBak

structure SetsInv (s : State) : Prop where
  cached : Cached s.thread.data s.maxSock
  select : ∀ fds, s.thread.worker = .onRun (.select fds) → AtSelect s fds

variable {s t : State} {d d' : CellServer} {maxSock : Socket}

theorem Cached.congr (h : Cached d maxSock) (hquiet : Quiet d d') : Cached d' maxSock := by
  intro hchange
  have hsockets : d'.sockets = d.sockets := by
    rw [CellServer.sockets, CellServer.sockets, hquiet.clients]
  rcases h (hquiet.clientChange.symm.trans hchange) with hempty | ⟨hfds, hmax⟩
  · exact .inl (by rw [hquiet.clients]; exact hempty)
  · exact .inr ⟨by rw [hsockets, hquiet.fdReadBak]; exact hfds, by rw [hsockets]; exact hmax⟩

theorem Cached.of_change (h : d.clientChange = true) : Cached d maxSock := fun hchange => by
  rw [h] at hchange
  cases hchange

theorem sockets_ne_nil (h : d.clients.isEmpty = false) : d.sockets ≠ [] := by
  intro hnil
  have hlength : d.clients.size = 0 := by
    rw [← Std.TreeMap.length_toList, List.map_eq_nil_iff.mp hnil, List.length_nil]
  rw [Std.TreeMap.isEmpty_eq_size_eq_zero, hlength] at h
  cases h

/-- Building the sets, or copying them. -/
theorem watched_gather (h : Cached s.thread.data s.maxSock)
    (hempty : s.thread.data.clients.isEmpty = false) :
    Watched (s.gather insertFd).thread.data (s.gather insertFd).thread.data.fdReadBak
        (s.gather insertFd).maxSock ∧
      (s.gather insertFd).thread.data.clientChange = false := by
  unfold State.gather CellServer.gatherWith
  cases hchange : s.thread.data.clientChange with
  | true =>
    simp only [if_true]
    refine ⟨⟨fun k => ?_, isGreatest_scanMaxSock (sockets_ne_nil hempty)⟩, trivial⟩
    rw [mem_foldl_insertFd]
    simp [CellServer.sockets]
  | false =>
    simp only [Bool.false_eq_true, if_false]
    refine ⟨(h hchange).resolve_left fun hnone => ?_, hchange⟩
    rw [hempty] at hnone
    cases hnone

/-! ## One step -/

/-- A step that leaves the map and the flag alone, and does not lead to `select`. -/
theorem SetsInv.of_quiet (h : SetsInv s) (hquiet : Quiet s.thread.data t.thread.data)
    (hmax : t.maxSock = s.maxSock)
    (hselect : ∀ fds, t.thread.worker ≠ .onRun (.select fds)) : SetsInv t := by
  refine ⟨?_, fun fds hw => absurd hw (hselect fds)⟩
  rw [hmax]
  exact h.cached.congr hquiet

/-- A step that raises the flag. -/
theorem SetsInv.of_change (hchange : t.thread.data.clientChange = true)
    (hselect : ∀ fds, t.thread.worker ≠ .onRun (.select fds)) : SetsInv t :=
  ⟨.of_change hchange, fun fds hw => absurd hw (hselect fds)⟩

section Thread

variable {u : Lifecycle.State} {i : Env} {isRun : Bool}

/-- A step of `onRun`. -/
theorem SetsInv.run (h : SetsInv s) (hown : ¬ OwnStep s.thread (.run isRun i))
    (hstep : Lifecycle.step s.thread (.run isRun i) = some u) :
    SetsInv (s.after (.run isRun i) u) := by
  obtain ⟨l, d, n, hw, hrun, rfl⟩ := Lifecycle.step_run hstep
  rw [OwnStep, hw] at hown
  obtain ⟨heffect, hn⟩ := onRun_effect hown hrun
  cases heffect with
  | quiet _ hquiet => exact h.of_quiet hquiet rfl fun fds hl => hn.onRun hl
  | merge => exact .of_change rfl fun fds hl => hn.onRun hl
  | leave => exact .of_change rfl fun fds hl => hn.onRun hl

/-- `Exit` returns into `onRun`. -/
theorem SetsInv.exit (hs : Inv s) (h : SetsInv s)
    (hstep : Lifecycle.step s.thread .exit = some u) : SetsInv (s.after .exit u) := by
  obtain ⟨l, hw, rfl⟩ := Lifecycle.step_exit hstep
  obtain rfl := hs.exiting l hw
  exact h.of_quiet ⟨rfl, rfl, rfl⟩ rfl fun fds hl => (by cases hl)

/-- A step of `ClearClients`.  It does not raise the flag. -/
theorem SetsInv.destroy (h : SetsInv s) (hstep : Lifecycle.step s.thread (.destroy i) = some u) :
    SetsInv (s.after (.destroy i) u) := by
  obtain ⟨l, d, o, hw, hclear, rfl⟩ := Lifecycle.step_destroy hstep
  have hselect : ∀ fds, (.ofDestory o : Worker Loc ClearLoc) ≠ .onRun (.select fds) :=
    fun fds => (ofDestory_ne o _).2
  cases CellServer.clearClients_cases hclear with
  | map =>
    refine ⟨fun _ => .inl ?_, fun fds hl => absurd hl (hselect fds)⟩
    exact Std.TreeMap.isEmpty_emptyc
  | next => exact h.of_quiet ⟨rfl, rfl, rfl⟩ rfl hselect
  | dangling => exact h.of_quiet ⟨rfl, rfl, rfl⟩ rfl hselect
  | buff => exact h.of_quiet ⟨rfl, rfl, rfl⟩ rfl hselect

/-- Another thread adds a client.  The map is left alone, also in front of `select`. -/
theorem SetsInv.add (h : SetsInv s) {c : ClientPtr} {moves : Bool}
    (hstep : Lifecycle.step s.thread (.add c moves) = some u) :
    SetsInv (s.after (.add c moves) u) := by
  obtain ⟨-, rfl⟩ := Lifecycle.step_add hstep
  refine ⟨h.cached.congr ⟨rfl, rfl, rfl⟩, fun fds hw => ?_⟩
  obtain ⟨hclients, hchange, hbak, hread, hwrite, hexc⟩ := h.select fds hw
  exact ⟨hclients, hchange, hbak, hread, hwrite, hexc⟩

end Thread

/-- The sets are built, or copied: this leads to `select`. -/
theorem SetsInv.gather (h : SetsInv s) (hempty : s.thread.data.clients.isEmpty = false) :
    SetsInv (s.gather insertFd) := by
  obtain ⟨hwatched, hchange⟩ := watched_gather h.cached hempty
  refine ⟨fun _ => .inr hwatched, fun fds hw => ?_⟩
  have hfds : fds = (s.gather insertFd).thread.data.fdReadBak := by
    cases hw
    rfl
  refine ⟨?_, hchange, hfds, rfl, rfl, rfl⟩
  exact (CellServer.same_gatherWith insertFd s.thread.data).clients ▸ hempty

theorem setsInv_step {a : Act} (hs : Inv s) (h : SetsInv s) (hstep : Step insertFd s a t) :
    SetsInv t := by
  have hselect {keys : List Socket} (fds : List Socket) :
      (.onRun (.checkTime keys) : Worker Loc ClearLoc) ≠ .onRun (.select fds) := fun hw => by
    cases hw
  cases hstep with
  | @thread a u hown hstep =>
    cases a with
    | run isRun i => exact h.run hown hstep
    | exit => exact h.exit hs hstep
    | destroy i => exact h.destroy hstep
    | add c moves => exact h.add hstep
  | idle => exact h.of_quiet ⟨rfl, rfl, rfl⟩ rfl fun fds hw => (by cases hw)
  | gather _ hempty => exact h.gather hempty
  | checkTime => exact h.of_quiet ⟨rfl, rfl, rfl⟩ rfl hselect
  | skip => exact h.of_quiet ⟨rfl, rfl, rfl⟩ rfl hselect
  | keep => exact h.of_quiet ⟨rfl, rfl, rfl⟩ rfl hselect
  | remove => exact .of_change rfl hselect
  | resetDtHeart hmsg =>
    refine h.of_quiet ⟨rfl, rfl, rfl⟩ rfl fun fds hw => ?_
    obtain ⟨_, _, _, _, hw'⟩ := worker_of_inNetMsg hmsg
    cases hw'.symm.trans hw
  | restart => exact h.of_quiet ⟨rfl, rfl, rfl⟩ rfl fun fds hw => (by cases hw)

/-! ## Every run -/

variable {now : ℤ} {fds : List Socket}

/-- The flag of a new server is up. -/
theorem setsInv_init : SetsInv (serverLoop insertFd now maxSock).init :=
  .of_change rfl fun fds hw => (by cases hw)

theorem setsInv_of_reachable (h : (serverLoop insertFd now maxSock).Reachable s) : SetsInv s := by
  have hboth : Inv s ∧ SetsInv s := by
    refine h.invariant (I := fun s => Inv s ∧ SetsInv s) ⟨inv_init, setsInv_init⟩ ?_
    rintro s a t ⟨hs, hsets⟩ hstep
    exact ⟨inv_step hs (step_cases hstep), setsInv_step hs hsets (step_cases hstep)⟩
  exact hboth.2

/-- **The sets are never stale.**  At every call of `select` there is a client, the three sets
are the sockets of the clients in the map, and `_max_sock` is the largest of them. -/
theorem select_sets (h : (serverLoop insertFd now maxSock).Reachable s)
    (hw : s.thread.worker = .onRun (.select fds)) :
    s.thread.data.clients.isEmpty = false ∧ s.fdRead = fds ∧
      (∀ k, k ∈ s.fdRead ↔ k ∈ s.thread.data.sockets) ∧
      (∀ k, k ∈ s.fdWrite ↔ k ∈ s.thread.data.sockets) ∧
      (∀ k, k ∈ s.fdExc ↔ k ∈ s.thread.data.sockets) ∧
      IsGreatest {k | k ∈ s.thread.data.sockets} s.maxSock := by
  have hinv := setsInv_of_reachable h
  obtain ⟨hclients, hchange, hbak, hread, hwrite, hexc⟩ := hinv.select fds hw
  obtain ⟨hfds, hmax⟩ := (hinv.cached hchange).resolve_left fun hnone => by
    rw [hclients] at hnone
    cases hnone
  rw [hread, hwrite, hexc, hbak]
  exact ⟨hclients, rfl, hfds, hfds, hfds, hmax⟩

/-- The second call of `select` in a run, for which the sets are copied. -/
theorem select_sets_copied : ∃ s, (serverLoop insertFd 0 0).Reachable s ∧
    s.thread.worker = .onRun (.select [3]) ∧ ∀ k, k ∈ s.fdWrite ↔ k ∈ s.thread.data.sockets := by
  obtain ⟨s, hs, hp⟩ := Machine.exists_reachable_of_run (M := serverLoop insertFd 0 0)
    [.thread (.add ⟨16, 1, 3⟩ false), .thread (.run true .tau), .thread (.run true .tau),
      .thread (.run true .tau), .gather 0, .thread (.run true (.select (some ([], [], [])))),
      .thread (.run true .tau), .thread (.run true .tau), .checkTime 5, .heart,
      .thread (.run true .tau), .thread (.run true .tau), .thread (.run true .tau), .gather 0]
    (fun s => decide (s.thread.worker = .onRun (.select [3]))) (by decide +kernel)
  have hw := of_decide_eq_true hp
  exact ⟨s, hs, hw, (select_sets hs hw).2.2.2.1⟩

end ServerLoop
end EasyTcpServer
