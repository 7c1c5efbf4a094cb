import EasyTcpServer.Lib.Machine
import EasyTcpServer.Lib.Protocol
import EasyTcpServer.ServerH.CellServers
import Mathlib.Data.Finset.Basic

/-!
# The server of `Server.h`

A `Server` accepts clients on its listening socket and hands them to its `Cell_Server`s, each of
which has a thread in `onRun` and a copy of the listening socket.  The machine below takes the
threads apart.  Those of the first are to accept a client, the call of `addClinetToCellserver`,
each comparison of its search, which holds no lock, and its call of `addClient`.  Those of a
`Cell_Server` are the merge of its queue, the call of `select`, its failure, each departure that
`recvData` notices, and the end of a pass.  `Close_sock` and the destructors may be called at any
time.

The system gives a descriptor that is not open; `fds` are those that are, and `log` records what
was obtained from `socket` and `accept` and what was passed to `close`.  `Init_sock` has succeeded,
and `Start` was called.

* The loop of `onRun` is the one over `fd_array`.  Which clients are ready is up to the system.
* `WSACleanup` is left out; nothing is accepted behind it, for the listening socket is closed.
* The queue is merged or not before `select`: a client may be added behind the test of its size.
* Nothing joins the thread that `Cell_Server::Start` creates, so `delete _pThread` in the destructor
  of a `Cell_Server` calls `std::terminate`: the program ends there.
* What uses a server that was destroyed has no result.

`Inv` holds in every run: the clients of all `Cell_Server`s have distinct sockets, which are open.
-/

namespace EasyTcpServer
namespace ServerH

/-- What happens to a descriptor. -/
inductive Event where
  /-- `socket` or `accept` has returned it. -/
  | obtain (sockfd : Socket)
  /-- It is passed to `close`. -/
  | close (sockfd : Socket)
  deriving DecidableEq, Repr

/-- Where a `Cell_Server` is in `onRun`. -/
inductive Loc where
  /-- At the head of the loop. -/
  | loop
  /-- In `select`. -/
  | select
  /-- In the loop over the descriptors that are ready. -/
  | read
  /-- `select` has failed, and `onRun` has returned. -/
  | failed
  deriving DecidableEq, Repr

/-- Where `addClinetToCellserver` is in its search. -/
structure Search (n : ℕ) where
  pMinServer : Fin (n + 1)
  /-- How many `Cell_Server`s it has been compared with. -/
  compared : ℕ
  deriving DecidableEq, Repr

/-- A search begins with the first `Cell_Server`. -/
def Search.start {n : ℕ} : Search n := ⟨⟨0, Nat.succ_pos n⟩, 0⟩

structure State (n : ℕ) where
  sock : Socket
  cellservers : Fin (n + 1) → CellServer
  clientCount : ℤ
  locs : Fin (n + 1) → Loc
  /-- The client that was accepted and not yet given to a `Cell_Server`. -/
  accepted : Option ClientSocketPtr
  /-- The call of `addClinetToCellserver` that is under way. -/
  search : Option (Search n)
  /-- The server object was destroyed. -/
  destroyed : Bool
  /-- `std::terminate` was called. -/
  terminated : Bool
  /-- The descriptors that are open. -/
  fds : Finset Socket
  log : List Event

/-- A step of a `Cell_Server`. -/
inductive CellAct where
  | merge
  /-- `select` is called. -/
  | select
  /-- `select` fails. -/
  | selectFails
  /-- `select` reports that clients are ready, or none. -/
  | ready
  /-- `recvData` returns -1 for a client. -/
  | leave (sockfd : Socket)
  /-- The pass is over. -/
  | passed
  /-- `Close_sock` is called by another thread. -/
  | closeSock
  /-- The destructor. -/
  | destroy
  deriving DecidableEq, Repr

inductive Act (n : ℕ) where
  /-- `accept` returns this descriptor. -/
  | accept (sockfd : Socket)
  /-- `addClinetToCellserver` is called. -/
  | addClinetToCellserver
  /-- A turn of its search. -/
  | compare
  /-- `addClient` of the `Cell_Server` that was found, and `OnNetJoin`. -/
  | addClient
  /-- `Close_sock` of the server. -/
  | closeSock
  /-- The destructor of the server. -/
  | destroy
  /-- A step of a `Cell_Server`. -/
  | cell (k : Fin (n + 1)) (a : CellAct)
  deriving DecidableEq, Repr

variable {n : ℕ}

/-- These sockets are passed to `close`. -/
def closeAll (s : State n) (sockets : List Socket) : State n :=
  { s with fds := s.fds \ sockets.toFinset, log := s.log ++ sockets.map .close }

/-- `Server::Close_sock`. -/
def closeSock (s : State n) : State n :=
  closeAll s (if s.sock ≠ invalidSocket then [s.sock] else [])

/-- `Cell_Server::Close_sock`. -/
def cellCloseSock (s : State n) (k : Fin (n + 1)) : State n :=
  let r := (s.cellservers k).closeSock
  closeAll { s with cellservers := Function.update s.cellservers k r.1 } r.2

def State.setCell (s : State n) (k : Fin (n + 1)) (c : CellServer) : State n :=
  { s with cellservers := Function.update s.cellservers k c }

def State.setLoc (s : State n) (k : Fin (n + 1)) (loc : Loc) : State n :=
  { s with locs := Function.update s.locs k loc }

def cellStep (s : State n) (k : Fin (n + 1)) : CellAct → Option (State n)
  | .merge =>
    if s.locs k = .loop ∧ (s.cellservers k).isRun then
      some (s.setCell k (s.cellservers k).merge)
    else none
  | .select =>
    if s.locs k = .loop ∧ (s.cellservers k).isRun ∧ ¬ (s.cellservers k).clients.isEmpty then
      some (s.setLoc k .select)
    else none
  | .selectFails =>
    if s.locs k = .select then some ((cellCloseSock s k).setLoc k .failed) else none
  | .ready => if s.locs k = .select then some (s.setLoc k .read) else none
  | .leave sockfd =>
    if s.locs k = .read ∧ sockfd ∈ (s.cellservers k).clients ∧ ¬ s.destroyed then
      -- `OnNetLeave`, and `_clients.erase`
      some { s.setCell k ((s.cellservers k).erase sockfd) with clientCount := s.clientCount - 1 }
    else none
  | .passed => if s.locs k = .read then some (s.setLoc k .loop) else none
  | .closeSock => some (cellCloseSock s k)
  -- `delete _pThread` of a thread that was not joined
  | .destroy => some { s with terminated := true }

/-- A step of the program while it runs. -/
def serve (s : State n) : Act n → Option (State n)
  | .accept sockfd =>
    if s.accepted = none ∧ ¬ s.destroyed ∧ s.sock ∈ s.fds ∧ sockfd ∉ s.fds ∧
        sockfd ≠ invalidSocket then
      some { s with
        accepted := some ⟨sockfd⟩
        fds := insert sockfd s.fds
        log := s.log ++ [.obtain sockfd] }
    else none
  | .addClinetToCellserver =>
    if ¬ s.destroyed ∧ s.accepted ≠ none ∧ s.search = none then
      some { s with search := some .start }
    else none
  | .compare =>
    if s.destroyed then none
    else s.search.bind fun q =>
      if h : q.compared < n + 1 then
        some { s with
          search := some ⟨compareMin s.cellservers q.pMinServer ⟨q.compared, h⟩, q.compared + 1⟩ }
      else none
  | .addClient =>
    if s.destroyed then none
    else s.search.bind fun q =>
      if q.compared = n + 1 then
        s.accepted.map fun p =>
          { s with
            cellservers := addClientTo s.cellservers q.pMinServer p
            clientCount := s.clientCount + 1
            accepted := none
            search := none }
      else none
  | .closeSock => if ¬ s.destroyed then some (closeSock s) else none
  | .destroy => if ¬ s.destroyed then some { closeSock s with destroyed := true } else none
  | .cell k a => cellStep s k a

def step (s : State n) (i : Act n) : Option (State n) := if s.terminated then none else serve s i

/-- A server with `n + 1` `Cell_Server`s that listens on `sock`. -/
def server (n : ℕ) (sock : Socket) : Machine (State n) (Act n) where
  init :=
    ⟨sock, fun _ => .new sock, 0, fun _ => .loop, none, none, false, false, {sock}, [.obtain sock]⟩
  step := step

/-- A call of `addClinetToCellserver` that nothing interrupts. -/
def dispatch (n : ℕ) : List (Act n) :=
  [Act.addClinetToCellserver] ++ List.replicate (n + 1) Act.compare ++ [Act.addClient]

variable {s t : State n} {j k : Fin (n + 1)} {sock : Socket}

theorem setCell_apply (c : CellServer) :
    (s.setCell k c).cellservers j = if j = k then c else s.cellservers j :=
  Function.update_apply ..

theorem setLoc_apply (loc : Loc) : (s.setLoc k loc).locs j = if j = k then loc else s.locs j :=
  Function.update_apply ..

theorem cellCloseSock_apply : (cellCloseSock s k).cellservers j =
    if j = k then (s.cellservers k).closeSock.1 else s.cellservers j :=
  Function.update_apply ..

/-! ## What one step can do -/

/-- The steps of a `Cell_Server`, from where they are taken and what they lead to. -/
inductive CellEffect (s : State n) (k : Fin (n + 1)) (t : State n) : CellAct → Prop
  | merge (hloc : s.locs k = .loop) (ht : t = s.setCell k (s.cellservers k).merge) :
    CellEffect s k t .merge
  | select (hloc : s.locs k = .loop) (hclients : ¬ (s.cellservers k).clients.isEmpty)
      (ht : t = s.setLoc k .select) : CellEffect s k t .select
  | selectFails (hloc : s.locs k = .select) (ht : t = (cellCloseSock s k).setLoc k .failed) :
    CellEffect s k t .selectFails
  | ready (hloc : s.locs k = .select) (ht : t = s.setLoc k .read) : CellEffect s k t .ready
  | leave {sockfd : Socket} (hloc : s.locs k = .read) (hin : sockfd ∈ (s.cellservers k).clients)
      (ht : t = { s.setCell k ((s.cellservers k).erase sockfd) with
        clientCount := s.clientCount - 1 }) : CellEffect s k t (.leave sockfd)
  | passed (hloc : s.locs k = .read) (ht : t = s.setLoc k .loop) : CellEffect s k t .passed
  | closeSock (ht : t = cellCloseSock s k) : CellEffect s k t .closeSock
  | destroy (ht : t = { s with terminated := true }) : CellEffect s k t .destroy

theorem cellEffect_of_cellStep {a : CellAct} (h : cellStep s k a = some t) :
    CellEffect s k t a := by
  cases a <;> simp only [cellStep, Option.ite_none_right_eq_some, Option.some.injEq] at h
  case merge => exact .merge h.1.1 h.2.symm
  case select => exact .select h.1.1 h.1.2.2 h.2.symm
  case selectFails => exact .selectFails h.1 h.2.symm
  case ready => exact .ready h.1 h.2.symm
  case leave sockfd => exact .leave h.1.1 h.1.2.1 h.2.symm
  case passed => exact .passed h.1 h.2.symm
  case closeSock => exact .closeSock h.symm
  case destroy => exact .destroy h.symm

/-- The steps of the machine. -/
inductive Effect (s t : State n) : Act n → Prop
  | accept {sockfd : Socket} (haccepted : s.accepted = none) (hopen : s.sock ∈ s.fds)
      (hnew : sockfd ∉ s.fds) (ht : t = { s with
        accepted := some ⟨sockfd⟩
        fds := insert sockfd s.fds
        log := s.log ++ [.obtain sockfd] }) : Effect s t (.accept sockfd)
  | addClinetToCellserver (haccepted : s.accepted ≠ none) (hsearch : s.search = none)
      (ht : t = { s with search := some .start }) : Effect s t .addClinetToCellserver
  | compare (q : Search n) (hq : s.search = some q) (hlt : q.compared < n + 1)
      (ht : t = { s with
        search :=
          some ⟨compareMin s.cellservers q.pMinServer ⟨q.compared, hlt⟩, q.compared + 1⟩ }) :
      Effect s t .compare
  | addClient (q : Search n) (p : ClientSocketPtr) (hq : s.search = some q)
      (hend : q.compared = n + 1) (hp : s.accepted = some p)
      (ht : t = { s with
        cellservers := addClientTo s.cellservers q.pMinServer p
        clientCount := s.clientCount + 1
        accepted := none
        search := none }) : Effect s t .addClient
  | closeSock (ht : t = ServerH.closeSock s) : Effect s t .closeSock
  | destroy (ht : t = { ServerH.closeSock s with destroyed := true }) : Effect s t .destroy
  | cell {k : Fin (n + 1)} {a : CellAct} (h : CellEffect s k t a) : Effect s t (.cell k a)

theorem effect_of_step {i : Act n} (hstep : step s i = some t) : Effect s t i := by
  obtain ⟨-, h⟩ := Option.ite_none_left_eq_some.mp hstep
  cases i with
  | accept sockfd =>
    simp only [serve, Option.ite_none_right_eq_some, Option.some.injEq] at h
    exact .accept h.1.1 h.1.2.2.1 h.1.2.2.2.1 h.2.symm
  | addClinetToCellserver =>
    simp only [serve, Option.ite_none_right_eq_some, Option.some.injEq] at h
    exact .addClinetToCellserver h.1.2.1 h.1.2.2 h.2.symm
  | compare =>
    simp only [serve, Option.ite_none_left_eq_some, Option.bind_eq_some_iff,
      Option.dite_none_right_eq_some, Option.some.injEq] at h
    obtain ⟨-, q, hq, hlt, rfl⟩ := h
    exact .compare q hq hlt rfl
  | addClient =>
    simp only [serve, Option.ite_none_left_eq_some, Option.bind_eq_some_iff,
      Option.ite_none_right_eq_some, Option.map_eq_some_iff] at h
    obtain ⟨-, q, hq, hend, p, hp, rfl⟩ := h
    exact .addClient q p hq hend hp rfl
  | closeSock =>
    simp only [serve, Option.ite_none_right_eq_some, Option.some.injEq] at h
    exact .closeSock h.2.symm
  | destroy =>
    simp only [serve, Option.ite_none_right_eq_some, Option.some.injEq] at h
    exact .destroy h.2.symm
  | cell k a => exact .cell (cellEffect_of_cellStep h)

/-- A step of one `Cell_Server` leaves the others as they are. -/
theorem CellEffect.of_ne {a : CellAct} (h : CellEffect s k t a) (hjk : j ≠ k) :
    t.locs j = s.locs j ∧ t.cellservers j = s.cellservers j := by
  have hcell (s : State n) (c : CellServer) :
      (s.setCell k c).cellservers j = s.cellservers j := by rw [setCell_apply, if_neg hjk]
  have hloc (s : State n) (loc : Loc) : (s.setLoc k loc).locs j = s.locs j := by
    rw [setLoc_apply, if_neg hjk]
  have hclose : (cellCloseSock s k).cellservers j = s.cellservers j := by
    rw [cellCloseSock_apply, if_neg hjk]
  cases h with
  | merge _ ht => exact ht ▸ ⟨rfl, hcell s _⟩
  | select _ _ ht => exact ht ▸ ⟨hloc s _, rfl⟩
  | selectFails _ ht => exact ht ▸ ⟨hloc _ _, hclose⟩
  | ready _ ht => exact ht ▸ ⟨hloc s _, rfl⟩
  | leave _ _ ht => exact ht ▸ ⟨rfl, hcell s _⟩
  | passed _ ht => exact ht ▸ ⟨hloc s _, rfl⟩
  | closeSock ht => exact ht ▸ ⟨rfl, hclose⟩
  | destroy ht => exact ht ▸ ⟨rfl, rfl⟩

/-! ## The invariant -/

/-- The clients have distinct sockets, which are open and not the listening socket. -/
structure Inv (s : State n) : Prop where
  nodup : ∀ k, (s.cellservers k).sockets.Nodup
  disjoint : ∀ j k, j ≠ k → (s.cellservers j).sockets.Disjoint (s.cellservers k).sockets
  opened : ∀ k, ∀ sockfd ∈ (s.cellservers k).sockets, sockfd ∈ s.fds ∧ sockfd ≠ s.sock
  accepted : ∀ p, s.accepted = some p →
    p.sockfd ∈ s.fds ∧ p.sockfd ≠ s.sock ∧ ∀ k, p.sockfd ∉ (s.cellservers k).sockets
  sock : ∀ k, (s.cellservers k).sock = s.sock
  valid : s.sock ≠ invalidSocket

/-- What is to be shown when clients only leave. -/
theorem Inv.of_subset (h : Inv s) (hsock : t.sock = s.sock) (haccepted : t.accepted = s.accepted)
    (hnodup : ∀ k, (t.cellservers k).sockets.Nodup)
    (hsub : ∀ k, (t.cellservers k).sockets ⊆ (s.cellservers k).sockets)
    (hfds : ∀ sockfd ∈ s.fds, sockfd ≠ s.sock →
      sockfd ∈ t.fds ∨ ∃ k, sockfd ∈ (s.cellservers k).sockets ∧
        ∀ j, sockfd ∉ (t.cellservers j).sockets)
    (hsocks : ∀ k, (t.cellservers k).sock = (s.cellservers k).sock) : Inv t := by
  refine ⟨hnodup, fun j k hjk => ?_, fun k sockfd hk => ?_, fun p hp => ?_, fun k => ?_,
    by rw [hsock]; exact h.valid⟩
  · exact fun _ hj hk => h.disjoint j k hjk (hsub j hj) (hsub k hk)
  · obtain ⟨hopen, hne⟩ := h.opened k sockfd (hsub k hk)
    rw [hsock]
    refine ⟨(hfds sockfd hopen hne).resolve_right ?_, hne⟩
    rintro ⟨-, -, hout⟩
    exact hout k hk
  · rw [haccepted] at hp
    obtain ⟨hopen, hne, hout⟩ := h.accepted p hp
    rw [hsock]
    refine ⟨(hfds p.sockfd hopen hne).resolve_right ?_, hne, fun k hk => hout k (hsub k hk)⟩
    rintro ⟨k, hk, -⟩
    exact hout k hk
  · rw [hsocks k, hsock]
    exact h.sock k

/-- One `Cell_Server` changes, and no descriptor is closed. -/
theorem Inv.setCell (h : Inv s) {c : CellServer} (hnodup : c.sockets.Nodup)
    (hsub : c.sockets ⊆ (s.cellservers k).sockets) (hsock : c.sock = (s.cellservers k).sock) :
    Inv (s.setCell k c) := by
  refine h.of_subset rfl rfl (fun j => ?_) (fun j => ?_) (fun _ hd _ => .inl hd) fun j => ?_
  · rw [setCell_apply]
    split_ifs
    · exact hnodup
    · exact h.nodup j
  · rw [setCell_apply]
    split_ifs with hjk
    · rw [hjk]
      exact hsub
    · exact List.Subset.refl _
  · rw [setCell_apply]
    split_ifs with hjk
    · rw [hjk]
      exact hsock
    · rfl

theorem Inv.setLoc (h : Inv s) (loc : Loc) : Inv (s.setLoc k loc) :=
  ⟨h.nodup, h.disjoint, h.opened, h.accepted, h.sock, h.valid⟩

/-- The sockets that `Close_sock` of a `Cell_Server` passes to `close`. -/
theorem Inv.closed (h : Inv s) (k : Fin (n + 1)) :
    (s.cellservers k).closeSock.2 = (s.cellservers k).clients.keys ++ [s.sock] := by
  have hsock := h.sock k
  rw [CellServer.closeSock_snd (by rw [hsock]; exact h.valid), hsock]

/-- The map of a `Cell_Server` is cleared, and the sockets of its clients are closed. -/
theorem Inv.of_cellCloseSock (h : Inv s) (k : Fin (n + 1)) : Inv (cellCloseSock s k) := by
  have hsub (j : Fin (n + 1)) :
      ((cellCloseSock s k).cellservers j).sockets.Sublist (s.cellservers j).sockets := by
    rw [cellCloseSock_apply]
    split_ifs with hjk
    · rw [hjk, CellServer.sockets_closeSock]
      exact List.sublist_append_right _ _
    · exact List.Sublist.refl _
  refine h.of_subset rfl rfl (fun j => (hsub j).nodup (h.nodup j)) (fun j => (hsub j).subset)
    (fun sockfd hopen hne => ?_) fun j => ?_
  · by_cases hin : sockfd ∈ (s.cellservers k).clients.keys
    · refine .inr ⟨k, List.mem_append_left _ hin, fun j hj => ?_⟩
      rw [cellCloseSock_apply] at hj
      split_ifs at hj with hjk
      · exact (List.nodup_append'.mp (h.nodup k)).2.2 hin hj
      · exact h.disjoint j k hjk hj (List.mem_append_left _ hin)
    · refine .inl ?_
      show sockfd ∈ s.fds \ (s.cellservers k).closeSock.2.toFinset
      rw [h.closed k, Finset.mem_sdiff, List.mem_toFinset, List.mem_append,
        List.mem_singleton]
      exact ⟨hopen, fun hout => hout.elim hin hne⟩
  · rw [cellCloseSock_apply]
    split_ifs with hjk
    · rw [hjk]
      rfl
    · rfl

/-- A client is accepted. -/
theorem Inv.accept (h : Inv s) {sockfd : Socket} (hopen : s.sock ∈ s.fds) (hnew : sockfd ∉ s.fds)
    {log : List Event} :
    Inv { s with accepted := some ⟨sockfd⟩, fds := insert sockfd s.fds, log := log } := by
  refine ⟨h.nodup, h.disjoint, fun k d hd => ?_, fun p hp => ?_, h.sock, h.valid⟩
  · exact (h.opened k d hd).imp_left (Finset.mem_insert_of_mem ·)
  · obtain rfl := Option.some.inj hp
    exact ⟨Finset.mem_insert_self _ _, (ne_of_mem_of_not_mem hopen hnew).symm,
      fun k hk => hnew (h.opened k sockfd hk).1⟩

/-- The client is given to a `Cell_Server`. -/
theorem Inv.add (h : Inv s) {p : ClientSocketPtr} (hp : s.accepted = some p) (k : Fin (n + 1))
    {count : ℤ} {search : Option (Search n)} :
    Inv { s with
      cellservers := addClientTo s.cellservers k p
      clientCount := count
      accepted := none
      search := search } := by
  obtain ⟨hopen, hne, hout⟩ := h.accepted p hp
  refine ⟨nodup_addClientTo p h.nodup hout, fun j k hjk d hj hk => ?_, fun k d hd => ?_,
    fun q hq => (by cases hq), fun k => ?_, h.valid⟩
  · obtain hj | ⟨hjm, rfl⟩ := mem_sockets_addClientTo p hj
    · obtain hk | ⟨-, rfl⟩ := mem_sockets_addClientTo p hk
      · exact h.disjoint j k hjk hj hk
      · exact hout j hj
    · obtain hk | ⟨hkm, -⟩ := mem_sockets_addClientTo p hk
      · exact hout k hk
      · exact hjk (hjm.trans hkm.symm)
  · obtain hd | ⟨-, rfl⟩ := mem_sockets_addClientTo p hd
    · exact h.opened k d hd
    · exact ⟨hopen, hne⟩
  · exact (sock_addClientTo p k).trans (h.sock k)

/-- The listening socket is closed. -/
theorem Inv.of_closeSock (h : Inv s) : Inv (closeSock s) := by
  refine h.of_subset rfl rfl h.nodup (fun k => List.Subset.refl _) (fun d hd hne => .inl ?_)
    fun _ => rfl
  show d ∈ s.fds \ (if s.sock ≠ invalidSocket then [s.sock] else []).toFinset
  rw [if_pos h.valid, Finset.mem_sdiff, List.mem_toFinset, List.mem_singleton]
  exact ⟨hd, hne⟩

theorem Inv.cellNext (h : Inv s) {a : CellAct} (heffect : CellEffect s k t a) : Inv t := by
  cases heffect with
  | merge _ ht =>
    have hperm := CellServer.sockets_merge_perm (h.nodup k)
    rw [ht]
    exact h.setCell (hperm.nodup_iff.mpr (h.nodup k)) hperm.subset rfl
  | select _ _ ht =>
    rw [ht]
    exact h.setLoc .select
  | selectFails _ ht =>
    rw [ht]
    exact (h.of_cellCloseSock k).setLoc .failed
  | ready _ ht =>
    rw [ht]
    exact h.setLoc .read
  | leave _ hin ht =>
    have hperm := CellServer.sockets_erase_perm hin
    have hnodup := hperm.nodup_iff.mp (h.nodup k)
    have hleft := h.setCell (List.nodup_cons.mp hnodup).2
      (fun d hd => hperm.mem_iff.mpr (List.mem_cons_of_mem _ hd)) rfl
    rw [ht]
    exact ⟨hleft.nodup, hleft.disjoint, hleft.opened, hleft.accepted, hleft.sock, hleft.valid⟩
  | passed _ ht =>
    rw [ht]
    exact h.setLoc .loop
  | closeSock ht =>
    rw [ht]
    exact h.of_cellCloseSock k
  | destroy ht =>
    rw [ht]
    exact ⟨h.nodup, h.disjoint, h.opened, h.accepted, h.sock, h.valid⟩

theorem Inv.next (h : Inv s) {i : Act n} (hstep : step s i = some t) : Inv t := by
  cases effect_of_step hstep with
  | accept _ hopen hnew ht =>
    rw [ht]
    exact h.accept hopen hnew
  | addClinetToCellserver _ _ ht =>
    rw [ht]
    exact ⟨h.nodup, h.disjoint, h.opened, h.accepted, h.sock, h.valid⟩
  | compare q _ _ ht =>
    rw [ht]
    exact ⟨h.nodup, h.disjoint, h.opened, h.accepted, h.sock, h.valid⟩
  | addClient q p _ _ hp ht =>
    rw [ht]
    exact h.add hp q.pMinServer
  | closeSock ht =>
    rw [ht]
    exact h.of_closeSock
  | destroy ht =>
    have hclosed := h.of_closeSock
    rw [ht]
    exact ⟨hclosed.nodup, hclosed.disjoint, hclosed.opened, hclosed.accepted, hclosed.sock,
      hclosed.valid⟩
  | cell heffect => exact h.cellNext heffect

theorem inv_init (hsock : sock ≠ invalidSocket) : Inv (server n sock).init :=
  ⟨fun _ => .nil, fun _ _ _ => List.disjoint_nil_left _, fun _ _ h => absurd h List.not_mem_nil,
    fun _ h => (by cases h), fun _ => rfl, hsock⟩

end ServerH
end EasyTcpServer
