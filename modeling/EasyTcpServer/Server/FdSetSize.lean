import EasyTcpServer.Server.SelectSets

/-!
# More clients than a set has room for

`FD_SETSIZE` is 2506, and a set that is full takes no more.  `onRun` puts the descriptors of all
its clients into the set, in the order of the map, which is that of the descriptors, and nothing
tells it that some were not taken.  So `select` watches the first 2506 clients, and the others are
out of sight for as long as these stay.

* `sets_built`: at every call of `select` the three sets are what `FD_SET` makes of the sockets
  of the clients in the map, whatever `FD_SET` does.
* `watched_clients`: these are the sockets of the first 2506 clients; all are watched exactly when
  there are no more.
* `unseen_of_unwatched`: a client that is not among the first at any call of `select` is never
  read from and never written to.
-/

namespace EasyTcpServer
namespace ServerLoop

open CellServer (Loc ClearLoc Env)
open CellThread (Worker)

/-! ## `FD_SET` for one descriptor after the other -/

/-- A set takes as many as it has room for. -/
theorem foldl_fdSet_append {fds socks : List Socket} (hnodup : (fds ++ socks).Nodup)
    (hle : fds.length ≤ fdSetSize) :
    socks.foldl fdSet fds = fds ++ socks.take (fdSetSize - fds.length) := by
  induction socks generalizing fds with
  | nil => simp
  | cons sockfd socks ih =>
    have hnew : sockfd ∉ fds := fun hin =>
      (List.nodup_append'.mp hnodup).2.2 hin List.mem_cons_self
    rw [List.foldl_cons]
    by_cases hfull : fdSetSize ≤ fds.length
    · rw [fdSet, if_pos (.inr hfull), ih (hnodup.sublist (by simp)) hle,
        Nat.sub_eq_zero_of_le hfull, List.take_zero, List.take_zero]
    · have hlength : (fds ++ [sockfd]).length = fds.length + 1 := by
        rw [List.length_append, List.length_singleton]
      have hroom : fdSetSize - fds.length = fdSetSize - (fds ++ [sockfd]).length + 1 := by
        omega
      rw [fdSet, if_neg (not_or.mpr ⟨hnew, hfull⟩),
        ih (by rwa [List.append_assoc, List.singleton_append]) (by omega), hroom,
        List.take_succ_cons, List.append_assoc, List.singleton_append]

theorem foldl_fdSet_nil {socks : List Socket} (hnodup : socks.Nodup) :
    socks.foldl fdSet [] = socks.take fdSetSize :=
  foldl_fdSet_append (show ([] ++ socks).Nodup from hnodup) (Nat.zero_le _)

/-! ## The sets are those of the clients in the map -/

variable {insert : List Socket → Socket → List Socket} {s t : State}

/-- What it means that `_client_change` is down. -/
def Built (insert : List Socket → Socket → List Socket) (d : CellServer) : Prop :=
  d.clientChange = false → d.clients.isEmpty = true ∨ d.fdReadBak = d.sockets.foldl insert []

structure BuiltInv (insert : List Socket → Socket → List Socket) (s : State) : Prop where
  built : Built insert s.thread.data
  select : ∀ fds, s.thread.worker = .onRun (.select fds) → AtSelect s fds

theorem Built.congr {d d' : CellServer} (h : Built insert d) (hquiet : Quiet d d') :
    Built insert d' := by
  intro hchange
  rw [hquiet.clients, hquiet.fdReadBak, CellServer.sockets, hquiet.clients]
  exact h (hquiet.clientChange.symm.trans hchange)

theorem BuiltInv.of_quiet (h : BuiltInv insert s) (hquiet : Quiet s.thread.data t.thread.data)
    (hselect : ∀ fds, t.thread.worker ≠ .onRun (.select fds)) : BuiltInv insert t :=
  ⟨h.built.congr hquiet, fun fds hw => absurd hw (hselect fds)⟩

theorem BuiltInv.of_change (hchange : t.thread.data.clientChange = true)
    (hselect : ∀ fds, t.thread.worker ≠ .onRun (.select fds)) : BuiltInv insert t := by
  refine ⟨fun hdown => ?_, fun fds hw => absurd hw (hselect fds)⟩
  rw [hchange] at hdown
  exact absurd hdown.symm Bool.false_ne_true

theorem BuiltInv.thread (hs : Inv s) (h : BuiltInv insert s) {a : Lifecycle.Act}
    {u : Lifecycle.State} (hown : ¬ OwnStep s.thread a)
    (hstep : Lifecycle.step s.thread a = some u) : BuiltInv insert (s.after a u) := by
  cases a with
  | run isRun i =>
    obtain ⟨l, d, n, hw, hrun, rfl⟩ := Lifecycle.step_run hstep
    rw [OwnStep, hw] at hown
    obtain ⟨heffect, hn⟩ := onRun_effect hown hrun
    cases heffect with
    | quiet _ hquiet => exact h.of_quiet hquiet fun fds hl => hn.onRun hl
    | merge => exact .of_change rfl fun fds hl => hn.onRun hl
    | leave => exact .of_change rfl fun fds hl => hn.onRun hl
  | exit =>
    obtain ⟨l, hw, rfl⟩ := Lifecycle.step_exit hstep
    obtain rfl := hs.exiting l hw
    exact h.of_quiet ⟨rfl, rfl, rfl⟩ fun fds hl => (by cases hl)
  | destroy i =>
    obtain ⟨l, d, o, hw, hclear, rfl⟩ := Lifecycle.step_destroy hstep
    have hselect : ∀ fds, (.ofDestory o : Worker Loc ClearLoc) ≠ .onRun (.select fds) :=
      fun fds => (ofDestory_ne o _).2
    cases CellServer.clearClients_cases hclear with
    | map => exact ⟨fun _ => .inl Std.TreeMap.isEmpty_emptyc, fun fds hl => absurd hl (hselect fds)⟩
    | next => exact h.of_quiet ⟨rfl, rfl, rfl⟩ hselect
    | dangling => exact h.of_quiet ⟨rfl, rfl, rfl⟩ hselect
    | buff => exact h.of_quiet ⟨rfl, rfl, rfl⟩ hselect
  | add c moves =>
    -- the map is left alone, also in front of `select`
    obtain ⟨-, rfl⟩ := Lifecycle.step_add hstep
    refine ⟨h.built.congr ⟨rfl, rfl, rfl⟩, fun fds hw => ?_⟩
    obtain ⟨hclients, hchange, hbak, hread, hwrite, hexc⟩ := h.select fds hw
    exact ⟨hclients, hchange, hbak, hread, hwrite, hexc⟩

/-- The sets are built, or copied. -/
theorem BuiltInv.gather (h : BuiltInv insert s)
    (hempty : s.thread.data.clients.isEmpty = false) : BuiltInv insert (s.gather insert) := by
  have hchange : (s.thread.data.gatherWith insert).clientChange = false := by
    unfold CellServer.gatherWith
    split_ifs with hup
    · rfl
    · exact Bool.eq_false_iff.mpr hup
  have hbuilt : Built insert (s.thread.data.gatherWith insert) := by
    unfold CellServer.gatherWith
    split_ifs
    · exact fun _ => .inr rfl
    · exact h.built
  refine ⟨hbuilt, fun fds hw => ?_⟩
  obtain rfl : (s.thread.data.gatherWith insert).fdReadBak = fds := by
    cases hw
    rfl
  refine ⟨?_, hchange, rfl, rfl, rfl, rfl⟩
  exact (CellServer.same_gatherWith insert s.thread.data).clients ▸ hempty

theorem builtInv_step {a : Act} (hs : Inv s) (h : BuiltInv insert s) (hstep : Step insert s a t) :
    BuiltInv insert t := by
  cases hstep with
  | thread hown hstep => exact h.thread hs hown hstep
  | idle => exact h.of_quiet ⟨rfl, rfl, rfl⟩ fun fds hw => (by cases hw)
  | gather _ hempty => exact h.gather hempty
  | checkTime => exact h.of_quiet ⟨rfl, rfl, rfl⟩ fun fds hw => (by cases hw)
  | skip => exact h.of_quiet ⟨rfl, rfl, rfl⟩ fun fds hw => (by cases hw)
  | keep => exact h.of_quiet ⟨rfl, rfl, rfl⟩ fun fds hw => (by cases hw)
  | remove => exact .of_change rfl fun fds hw => (by cases hw)
  | resetDtHeart => exact ⟨h.built, fun fds hw => ⟨(h.select fds hw).clients,
      (h.select fds hw).change, (h.select fds hw).fdReadBak, (h.select fds hw).fdRead,
      (h.select fds hw).fdWrite, (h.select fds hw).fdExc⟩⟩
  | restart => exact h.of_quiet ⟨rfl, rfl, rfl⟩ fun fds hw => (by cases hw)

variable {now : ℤ} {maxSock : Socket} {fds : List Socket}

theorem builtInv_of_reachable (h : (serverLoop insert now maxSock).Reachable s) :
    Inv s ∧ BuiltInv insert s := by
  refine h.invariant (I := fun s => Inv s ∧ BuiltInv insert s)
    ⟨inv_init, .of_change rfl fun fds hw => (by cases hw)⟩ ?_
  rintro s a t ⟨hs, hbuilt⟩ hstep
  exact ⟨inv_step hs (step_cases hstep), builtInv_step hs hbuilt (step_cases hstep)⟩

/-- **The sets are what `FD_SET` makes of the clients in the map**, also when they are copied. -/
theorem sets_built (h : (serverLoop insert now maxSock).Reachable s)
    (hw : s.thread.worker = .onRun (.select fds)) :
    fds = s.thread.data.sockets.foldl insert [] ∧
      s.fdRead = fds ∧ s.fdWrite = fds ∧ s.fdExc = fds := by
  obtain ⟨-, hbuilt⟩ := builtInv_of_reachable h
  obtain ⟨hclients, hchange, hbak, hread, hwrite, hexc⟩ := hbuilt.select fds hw
  have hsets := (hbuilt.built hchange).resolve_left fun hnone => by
    rw [hclients] at hnone
    exact absurd hnone Bool.false_ne_true
  exact ⟨hbak.trans hsets, hread.trans hbak.symm, hwrite.trans hbak.symm, hexc.trans hbak.symm⟩

/-! ## The first clients -/


/-- The clients `select` is asked about. -/
def watched (d : CellServer) : List ClientPtr :=
  (d.clients.toList.map Prod.snd).take fdSetSize

/-- Each client is in the map under its own socket. -/
def Keyed (d : CellServer) : Prop :=
  ∀ (k : Socket) (c : ClientPtr), d.clients[k]? = some c → c.sockfd = k

variable {d : CellServer} {c : ClientPtr} {k : Socket}

theorem keyed_of_life (h : Life s) : Keyed s.thread.data := fun _ _ hc => (h.not_mem_queue hc).1

theorem mem_toList {p : Socket × ClientPtr} : p ∈ d.clients.toList ↔ d.clients[p.1]? = some p.2 :=
  Std.TreeMap.mem_toList_iff_getElem?_eq_some

theorem sockets_eq_keys (hkey : Keyed d) : d.sockets = d.clients.keys := by
  rw [CellServer.sockets, ← Std.TreeMap.map_fst_toList_eq_keys]
  exact List.map_congr_left fun p hp => hkey p.1 p.2 (mem_toList.mp hp)

theorem nodup_sockets (hkey : Keyed d) : d.sockets.Nodup := by
  rw [sockets_eq_keys hkey]
  exact Std.TreeMap.nodup_keys

theorem map_watched : (watched d).map ClientPtr.sockfd = d.sockets.take fdSetSize := by
  rw [watched, List.map_take, List.map_map]
  rfl

/-- All clients are watched exactly when the set has room for them. -/
theorem forall_mem_watched_iff (hkey : Keyed d) :
    (∀ (k : Socket) (c : ClientPtr), d.clients[k]? = some c → c ∈ watched d) ↔
      d.clients.size ≤ fdSetSize := by
  have hlength : (d.clients.toList.map Prod.snd).length = d.clients.size := by
    rw [List.length_map, Std.TreeMap.length_toList]
  constructor
  · intro hall
    have hnodup : (d.clients.toList.map Prod.snd).Nodup := by
      refine List.Nodup.of_map ClientPtr.sockfd ?_
      rw [List.map_map]
      exact nodup_sockets hkey
    have hsubset : d.clients.toList.map Prod.snd ⊆ watched d := by
      intro c hc
      obtain ⟨p, hp, rfl⟩ := List.mem_map.mp hc
      exact hall p.1 p.2 (mem_toList.mp hp)
    rw [← hlength]
    exact (hnodup.subperm hsubset).length_le.trans (List.length_take_le _ _)
  · intro hle k c hc
    rw [watched, List.take_of_length_le (hlength.trans_le hle)]
    exact List.mem_map.mpr ⟨(k, c), mem_toList.mpr hc, rfl⟩

/-- **`select` is asked about the first clients**, and about all exactly when the sets have room
for them. -/
theorem watched_clients (h : (serverLoop fdSet now maxSock).Reachable s)
    (hw : s.thread.worker = .onRun (.select fds)) :
    fds = (watched s.thread.data).map ClientPtr.sockfd ∧
      s.fdRead = fds ∧ s.fdWrite = fds ∧ s.fdExc = fds ∧
      ((∀ (k : Socket) (c : ClientPtr), s.thread.data.clients[k]? = some c →
        c ∈ watched s.thread.data) ↔ s.thread.data.clients.size ≤ fdSetSize) := by
  obtain ⟨hfds, hsets⟩ := sets_built h hw
  have hkey := keyed_of_life (builtInv_of_reachable h).1.life
  rw [map_watched, ← foldl_fdSet_nil (nodup_sockets hkey)]
  exact ⟨hfds, hsets.1, hsets.2.1, hsets.2.2, forall_mem_watched_iff hkey⟩

/-- A second client is added when the sets have been built for the first. -/
def addedLate : List Act :=
  [.thread (.add ⟨16, 1, 3⟩ false), .thread (.run true .tau), .thread (.run true .tau),
    .thread (.run true .tau), .gather 0, .thread (.add ⟨32, 2, 7⟩ false)]

theorem watched_clients_one : ∃ s, (serverLoop fdSet 0 0).Reachable s ∧
    s.thread.worker = .onRun (.select [3]) ∧ [3] = (watched s.thread.data).map ClientPtr.sockfd ∧
      s.fdRead = [3] ∧ s.fdWrite = [3] ∧ s.fdExc = [3] ∧
      ((∀ (k : Socket) (c : ClientPtr), s.thread.data.clients[k]? = some c →
        c ∈ watched s.thread.data) ↔ s.thread.data.clients.size ≤ fdSetSize) := by
  obtain ⟨s, hs, hp⟩ := Machine.exists_reachable_of_run (M := serverLoop fdSet 0 0) addedLate
    (fun s => decide (s.thread.worker = .onRun (.select [3]))) (by decide +kernel)
  have hw := of_decide_eq_true hp
  exact ⟨s, hs, hw, watched_clients hs hw⟩

/-! ## A client out of sight -/

/-- The client is read from or written to. -/
def Serves (c : ClientPtr) (e : Event) : Prop :=
  e = .recv c ∨ e = .recvCount c ∨ e = .msg c ∨ e = .send c

/-- The descriptors the thread has still to come to. -/
def toServe : Worker Loc ClearLoc → List Socket
  | .onRun (.select fds) => fds
  | .onRun (.read fdRead fdWrite fdExc) => fdRead ++ fdWrite ++ fdExc
  | .onRun (.handle _ fdRead fdWrite fdExc) => fdRead ++ fdWrite ++ fdExc
  | .onRun (.write fdWrite fdExc) => fdWrite ++ fdExc.getD []
  | _ => []

/-- The client has not been served, and will not be before the next call of `select`. -/
structure Unseen (c : ClientPtr) (s : Lifecycle.State) : Prop where
  log : ∀ e ∈ s.data.log, ¬ Serves c e
  ready : ∀ k ∈ toServe s.worker, s.data.clients[k]? ≠ some c
  handle : ∀ c' fdRead fdWrite fdExc, s.worker = .onRun (.handle c' fdRead fdWrite fdExc) → c' ≠ c

/-- A step that serves others, and comes to no new descriptor. -/
theorem Unseen.of_subset {u v : Lifecycle.State} (h : Unseen c u) {es : List Event}
    (hlog : v.data.log = u.data.log ++ es) (hes : ∀ e ∈ es, ¬ Serves c e)
    (hready : ∀ k ∈ toServe v.worker, k ∈ toServe u.worker ∧
      (v.data.clients[k]? = some c → u.data.clients[k]? = some c))
    (hhandle : ∀ c' fdRead fdWrite fdExc,
      v.worker = .onRun (.handle c' fdRead fdWrite fdExc) → c' ≠ c) : Unseen c v := by
  refine ⟨fun e he => ?_, fun k hk hc => ?_, hhandle⟩
  · rw [hlog] at he
    rcases List.mem_append.mp he with he | he
    · exact h.log e he
    · exact hes e he
  · obtain ⟨hin, hsame⟩ := hready k hk
    exact h.ready k hin (hsame hc)

section Thread

variable {u v : Lifecycle.State} {l : Loc} {i : Env} {n : Next Loc} {isRun : Bool}

/-- A step that does nothing to a client. -/
theorem Unseen.goto (h : Unseen c u) {l : Loc}
    (hready : ∀ k ∈ toServe (.onRun l), k ∈ toServe u.worker)
    (hhandle : ∀ c' fdRead fdWrite fdExc, l ≠ .handle c' fdRead fdWrite fdExc) :
    Unseen c { u with worker := .onRun l } :=
  h.of_subset (List.append_nil _).symm (fun _ he => absurd he List.not_mem_nil)
    (fun k hk => ⟨hready k hk, id⟩)
    fun c' fdRead fdWrite fdExc hw => absurd (Worker.onRun.inj hw) (hhandle c' fdRead fdWrite fdExc)

/-- The pass is over, or has not begun. -/
theorem Unseen.elsewhere (h : Unseen c u) {d : CellServer} {w : Worker Loc ClearLoc}
    {es : List Event} (hlog : d.log = u.data.log ++ es) (hes : ∀ e ∈ es, ¬ Serves c e)
    (hserve : toServe w = [])
    (hhandle : ∀ c' fdRead fdWrite fdExc, w ≠ .onRun (.handle c' fdRead fdWrite fdExc)) :
    Unseen c { u with data := d, worker := w } := by
  refine h.of_subset hlog hes (fun k hk => ?_) fun c' fdRead fdWrite fdExc hw =>
    absurd hw (hhandle c' fdRead fdWrite fdExc)
  rw [show toServe w = [] from hserve] at hk
  exact absurd hk List.not_mem_nil

theorem Unseen.pass (h : Unseen c u) {w : Worker Loc ClearLoc} (hserve : toServe w = [])
    (hhandle : ∀ c' fdRead fdWrite fdExc, w ≠ .onRun (.handle c' fdRead fdWrite fdExc)) :
    Unseen c { u with worker := w } :=
  h.elsewhere (List.append_nil _).symm (fun _ he => absurd he List.not_mem_nil) hserve hhandle

/-- Another client is served, and perhaps leaves. -/
theorem Unseen.serve (h : Unseen c u) {c' : ClientPtr} {es : List Event} {l : Loc}
    (hne : c' ≠ c) (hes : ∀ e ∈ es, e = .recv c' ∨ e = .recvCount c' ∨ e = .msg c' ∨ e = .send c')
    (hready : ∀ k ∈ toServe (.onRun l), k ∈ toServe u.worker)
    (hhandle : ∀ c'' fdRead fdWrite fdExc, l = .handle c'' fdRead fdWrite fdExc → c'' = c') :
    Unseen c { u with data := u.data.record es, worker := .onRun l } ∧
      ∀ k, Unseen c
        { u with data := (u.data.record es).onClientLeave c' k, worker := .onRun l } := by
  have hother : ∀ e ∈ es, ¬ Serves c e := by
    intro e he hserves
    rcases hes e he with rfl | rfl | rfl | rfl <;>
      simp only [Serves, reduceCtorEq, Event.recv.injEq, Event.recvCount.injEq, Event.msg.injEq,
        Event.send.injEq, or_false, false_or] at hserves <;>
      exact hne hserves
  have hhandle' (c'' : ClientPtr) (fdRead fdWrite fdExc : List Socket)
      (hw : (.onRun l : Worker Loc ClearLoc) = .onRun (.handle c'' fdRead fdWrite fdExc)) :
      c'' ≠ c := by
    rw [hhandle c'' fdRead fdWrite fdExc (Worker.onRun.inj hw)]
    exact hne
  refine ⟨h.of_subset rfl hother (fun k hk => ⟨hready k hk, id⟩) hhandle', fun k => ?_⟩
  have hlog : ((u.data.record es).onClientLeave c' k).log =
      u.data.log ++ (es ++ [.leave c', .delete c']) := List.append_assoc _ _ _
  refine h.of_subset hlog ?_ (fun k' hk' => ⟨hready k' hk', ?_⟩) hhandle'
  · intro e he
    rcases List.mem_append.mp he with he | he
    · exact hother e he
    · rcases List.mem_pair.mp he with rfl | rfl <;> simp [Serves]
  · intro hc
    rw [CellServer.getElem?_onClientLeave, Option.ite_none_left_eq_some] at hc
    exact hc.2

/-- **A step of `onRun`**, in front of or behind `select`. -/
theorem Unseen.run (h : Unseen c u) (hw : u.worker = .onRun l) (hl : ¬ Timed l)
    (hrun : u.data.onRun isRun l i = some (d, n)) :
    Unseen c { u with data := d, worker := .ofRun .map n } := by
  have hready := h.ready
  have hhandle := h.handle
  rw [hw] at hready
  cases l with
  | loop =>
    cases i <;> cases hrun
    split_ifs
    · exact h.pass rfl (by simp [Worker.ofRun])
    · exact h.pass rfl (by simp [Worker.ofRun])
  | test =>
    cases i <;> cases hrun
    split_ifs
    · exact h.pass rfl (by simp [Worker.ofRun])
    · exact h.pass rfl (by simp [Worker.ofRun])
  | merge =>
    cases i <;> cases hrun
    have hlog : u.data.merge.log = u.data.log ++ u.data.clientsBuff.map .join := rfl
    refine h.elsewhere hlog ?_ rfl (by simp [Worker.ofRun])
    intro e he
    obtain ⟨c', -, rfl⟩ := List.mem_map.mp he
    simp [Serves]
  | gather => exact absurd trivial hl
  | select fds =>
    cases i with
    | select sets =>
      rcases sets with _ | ⟨fdRead, fdWrite, fdExc⟩
      · cases hrun
        exact h.pass rfl (by simp [Worker.ofRun])
      · rw [CellServer.onRun, Option.ite_none_right_eq_some] at hrun
        obtain ⟨⟨hread, hwrite, hexc⟩, hrun⟩ := hrun
        cases hrun
        refine h.goto (fun k hk => ?_) (by simp)
        rw [hw]
        simp only [toServe, List.mem_append] at hk ⊢
        rcases hk with (hk | hk) | hk
        · exact hread.subset hk
        · exact hwrite.subset hk
        · exact hexc.subset hk
    | _ => cases hrun
  | broken =>
    cases i <;> cases hrun
    exact h.pass rfl (by simp [Worker.ofRun])
  | read fdRead fdWrite fdExc =>
    cases fdRead with
    | nil =>
      cases i <;> cases hrun
      exact h.goto (by rw [hw]; simp [toServe]) (by simp)
    | cons sockfd fdRead =>
      have hrest : ∀ k ∈ toServe (.onRun (.read fdRead fdWrite fdExc) : Worker Loc ClearLoc),
          k ∈ toServe u.worker := by
        rw [hw]
        exact fun k hk => List.mem_cons_of_mem _ hk
      rw [CellServer.onRun] at hrun
      cases i with
      | tau =>
        simp only [CellServer.readData, Option.ite_none_right_eq_some, Option.some.injEq,
          Prod.mk.injEq] at hrun
        obtain ⟨-, rfl, rfl⟩ := hrun
        exact h.goto hrest (by simp)
      | recv nLen =>
        obtain ⟨c', hc', hrun⟩ := Option.map_eq_some_iff.mp hrun
        have hne : c' ≠ c := by
          rintro rfl
          exact hready sockfd List.mem_cons_self hc'
        split_ifs at hrun <;> cases hrun
        · exact (h.serve hne (by simp) hrest (by simp)).2 sockfd
        · exact (h.serve (l := .handle c' fdRead fdWrite fdExc) hne (by simp) hrest
            fun _ _ _ _ heq => (Loc.handle.inj heq).1.symm).1
      | _ => cases hrun
  | handle c' fdRead fdWrite fdExc =>
    have hne : c' ≠ c := hhandle _ _ _ _ hw
    cases i <;> cases hrun
    · exact h.goto (by rw [hw]; simp [toServe]) (by simp)
    · exact (h.serve hne (by simp) (by rw [hw]; simp [toServe])
        fun _ _ _ _ heq => (Loc.handle.inj heq).1.symm).1
  | write fdWrite fdExc =>
    cases fdWrite with
    | nil =>
      cases fdExc with
      | none => exact absurd trivial hl
      | some fdExc =>
        cases i <;> cases hrun
        exact h.goto (by rw [hw]; simp [toServe]) (by simp)
    | cons sockfd fdWrite =>
      have hrest : ∀ k ∈ toServe (.onRun (.write fdWrite fdExc) : Worker Loc ClearLoc),
          k ∈ toServe u.worker := by
        rw [hw]
        exact fun k hk => List.mem_cons_of_mem _ hk
      rw [CellServer.onRun] at hrun
      cases i with
      | tau =>
        simp only [CellServer.writeData, Option.ite_none_right_eq_some, Option.some.injEq,
          Prod.mk.injEq] at hrun
        obtain ⟨-, rfl, rfl⟩ := hrun
        exact h.goto hrest (by simp)
      | send ret =>
        obtain ⟨c', hc', hrun⟩ := Option.map_eq_some_iff.mp hrun
        have hne : c' ≠ c := by
          rintro rfl
          exact hready sockfd List.mem_cons_self hc'
        split_ifs at hrun <;> cases hrun
        · exact (h.serve hne (by simp) hrest (by simp)).2 sockfd
        · exact (h.serve hne (by simp) hrest (by simp)).1
      | _ => cases hrun
  | checkTime keys =>
    cases keys with
    | nil =>
      cases i <;> cases hrun
      exact h.pass rfl (by simp [Worker.ofRun])
    | cons sockfd keys => exact absurd trivial hl

/-- Any other step of the thread and its surroundings. -/
theorem Unseen.thread (hs : Inv s) (h : Unseen c s.thread) {a : Lifecycle.Act}
    (hown : ¬ OwnStep s.thread a) (hstep : Lifecycle.step s.thread a = some u) : Unseen c u := by
  cases a with
  | run isRun i =>
    obtain ⟨l, d, n, hw, hrun, rfl⟩ := Lifecycle.step_run hstep
    rw [OwnStep, hw] at hown
    exact h.run hw hown hrun
  | exit =>
    obtain ⟨l, hw, rfl⟩ := Lifecycle.step_exit hstep
    obtain rfl := hs.exiting l hw
    exact h.pass rfl (by simp)
  | destroy i =>
    obtain ⟨l, d, o, hw, hclear, rfl⟩ := Lifecycle.step_destroy hstep
    have hserve : toServe (.ofDestory o : Worker Loc ClearLoc) = [] := by cases o <;> rfl
    have hhandle (c' : ClientPtr) (fdRead fdWrite fdExc : List Socket) :
        (.ofDestory o : Worker Loc ClearLoc) ≠ .onRun (.handle c' fdRead fdWrite fdExc) :=
      (ofDestory_ne o _).2
    cases CellServer.clearClients_cases hclear with
    | map =>
      have hlog : s.thread.data.clearMap.log =
          s.thread.data.log ++ s.thread.data.clients.toList.map fun p => .clear p.2 := rfl
      refine h.elsewhere hlog ?_ hserve hhandle
      intro e he
      obtain ⟨p, -, rfl⟩ := List.mem_map.mp he
      simp [Serves]
    | @next k n c' =>
      have hlog : (s.thread.data.record [.clear c']).log = s.thread.data.log ++ [.clear c'] := rfl
      exact h.elsewhere hlog (by simp [Serves]) hserve hhandle
    | dangling => exact h.elsewhere (List.append_nil _).symm (by simp) hserve hhandle
    | buff => exact h.elsewhere (List.append_nil _).symm (by simp) hserve hhandle
  | add c' moves =>
    obtain ⟨-, rfl⟩ := Lifecycle.step_add hstep
    exact ⟨h.log, h.ready, h.handle⟩

end Thread

/-! ## Every run -/

/-- The client is not among the first when the sets are built or copied. -/
def Unwatched (c : ClientPtr) (s : State) : Act → Prop
  | .gather _ => c ∉ watched s.thread.data
  | _ => True

instance (c : ClientPtr) (s : State) : (a : Act) → Decidable (Unwatched c s a)
  | .gather _ => inferInstanceAs (Decidable (c ∉ watched s.thread.data))
  | .thread _ | .checkTime _ | .heart | .resetDtHeart _ | .restart => .isTrue trivial

/-- `select` is not asked about a client that is not among the first. -/
theorem getElem?_ne_of_unwatched (hkey : Keyed d) (hc : c ∉ watched d) :
    ∀ k ∈ d.sockets.take fdSetSize, d.clients[k]? ≠ some c := by
  intro k hk heq
  rw [← map_watched] at hk
  obtain ⟨c', hc', rfl⟩ := List.mem_map.mp hk
  obtain ⟨p, hp, rfl⟩ := List.mem_map.mp (List.mem_of_mem_take hc')
  have hp' := mem_toList.mp hp
  rw [hkey p.1 p.2 hp', hp'] at heq
  exact hc (Option.some.inj heq ▸ hc')

theorem unseen_step {a : Act} (hs : Inv s) (hbuilt : BuiltInv fdSet s) (h : Unseen c s.thread)
    (hok : Unwatched c s a) (hstep : Step fdSet s a t) : Unseen c t.thread := by
  have hkey := keyed_of_life hs.life
  cases hstep with
  | thread hown hstep => exact h.thread hs hown hstep
  | idle => exact h.pass rfl (by simp)
  | gather _ hempty =>
    have hsame := CellServer.same_gatherWith fdSet s.thread.data
    have hselect := (hbuilt.gather hempty).select _ rfl
    have hfds := ((hbuilt.gather hempty).built hselect.change).resolve_left fun hnone => by
      rw [hselect.clients] at hnone
      exact absurd hnone Bool.false_ne_true
    refine ⟨fun e he => h.log e (hsame.log ▸ he), fun k hk => ?_, fun _ _ _ _ hw => by cases hw⟩
    have hclients : (s.gather fdSet).thread.data.clients = s.thread.data.clients := hsame.clients
    rw [hclients]
    refine getElem?_ne_of_unwatched hkey hok k ?_
    rw [← foldl_fdSet_nil (nodup_sockets hkey)]
    rw [CellServer.sockets, hclients] at hfds
    exact hfds ▸ hk
  | checkTime => exact h.pass rfl (by simp)
  | skip => exact h.pass rfl (by simp)
  | @keep sockfd keys c' =>
    have hlog : (s.thread.data.record [.heart c']).log = s.thread.data.log ++ [.heart c'] := rfl
    exact h.elsewhere hlog (by simp [Serves]) rfl (by simp)
  | @remove sockfd keys c' =>
    have hlog : ((s.thread.data.record [.heart c']).onClientLeave c' sockfd).log =
        s.thread.data.log ++ ([.heart c'] ++ [.leave c', .delete c']) := List.append_assoc _ _ _
    exact h.elsewhere hlog (by simp [Serves]) rfl (by simp)
  | resetDtHeart => exact ⟨h.log, h.ready, h.handle⟩
  | restart => exact h.pass rfl (by simp)

/-- **A client that is never among the first is never served**: whatever it sends, the server does
not read it, and nothing that is queued for it is sent. -/
theorem unseen_of_unwatched (h : (serverLoop fdSet now maxSock).ReachWithin (Unwatched c) s) :
    ∀ e ∈ s.thread.data.log, ¬ Serves c e := by
  have hall : Inv s ∧ BuiltInv fdSet s ∧ Unseen c s.thread := by
    refine h.invariant (I := fun s => Inv s ∧ BuiltInv fdSet s ∧ Unseen c s.thread) ?_ ?_
    · exact ⟨inv_init, .of_change rfl fun fds hw => (by cases hw), fun _ he =>
        absurd he List.not_mem_nil, fun _ hk => absurd hk List.not_mem_nil,
        fun _ _ _ _ hw => by cases hw⟩
    · rintro s a t ⟨hs, hbuilt, hunseen⟩ hok hstep
      have hcases := step_cases hstep
      exact ⟨inv_step hs hcases, builtInv_step hs hbuilt hcases,
        unseen_step hs hbuilt hunseen hok hcases⟩
  exact hall.2.2.log

/-- The client that is added late is not served while the first is. -/
theorem unseen_of_unwatched_late :
    ∃ s, (serverLoop fdSet 0 0).ReachWithin (Unwatched ⟨32, 2, 7⟩) s ∧
      .recv ⟨16, 1, 3⟩ ∈ s.thread.data.log ∧ (⟨32, 2, 7⟩ : ClientPtr) ∈ s.thread.added ∧
      ∀ e ∈ s.thread.data.log, ¬ Serves ⟨32, 2, 7⟩ e := by
  obtain ⟨s, hs, hp⟩ := Machine.exists_reachWithin_of_run (M := serverLoop fdSet 0 0)
    (Unwatched ⟨32, 2, 7⟩)
    (addedLate ++
      [.thread (.run true (.select (some ([3], [], [])))), .thread (.run true (.recv 5))])
    (fun s => .recv ⟨16, 1, 3⟩ ∈ s.thread.data.log ∧ (⟨32, 2, 7⟩ : ClientPtr) ∈ s.thread.added)
    (by decide +kernel)
  obtain ⟨hrecv, hadded⟩ := of_decide_eq_true hp
  exact ⟨s, hs, hrecv, hadded, unseen_of_unwatched hs⟩

end ServerLoop
end EasyTcpServer
