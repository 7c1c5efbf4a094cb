import EasyTcpServer.ServerH.Server

/-!
# Which client a reply of the server of `Server.h` reaches

A task holds a `Client_socketPtr`, so the object of the client is there when the task runs, also
when the client has left in between.  What `sendData` passes to `send` is the descriptor in that
object.  Whether it still stands for the connection of that client is up to what has happened to
the descriptor: one that was closed may be given to a client that is accepted later.

The machine below is that of `ServerH.Server`, with the tasks given to the task servers of the
`Cell_Server`s and a record of what the program does not know: the clients in the order in which
they were accepted, whom each descriptor was last given to, whose descriptor was closed, and who
has left.  Clients are told apart by their numbers.  That the task runs stands for its call of
`send`, if it makes one.

Nothing is supposed of the task server, whose code is not part of the repository: a task that was
added may run at any later time, any number of times, or never.

* `peer`: the client whose connection a descriptor stands for.
* `own_replies`: a descriptor stands for the connection of its client exactly as long as no
  `Cell_Server` has closed it.  The descriptor of a client that has left is never closed, and so
  the replies that are still queued for it go to nobody else.
-/

namespace EasyTcpServer
namespace ServerH

variable {n : ℕ}

namespace SendTasks

structure State (n : ℕ) where
  server : ServerH.State n
  /-- The descriptors of the clients, in the order in which they were accepted. -/
  accepted : List Socket
  /-- The client a descriptor was last given to. -/
  owner : Socket → Option ℕ
  /-- The clients whose descriptors were passed to `close`. -/
  lost : List ℕ
  /-- The clients for which `OnNetLeave` was called. -/
  departed : List ℕ
  /-- The clients of the tasks that were added. -/
  tasks : Fin (n + 1) → List ℕ
  /-- For each task that has run, its client and the client whose connection got the bytes. -/
  sends : List (ℕ × Option ℕ)

inductive Act (n : ℕ) where
  /-- A step of the server. -/
  | server (i : ServerH.Act n)
  /-- The handler of a message from the client on this descriptor calls `addSendTask`. -/
  | addSendTask (k : Fin (n + 1)) (sockfd : Socket)
  /-- A task for this client runs. -/
  | doTask (k : Fin (n + 1)) (c : ℕ)
  deriving DecidableEq, Repr

/-- The client whose connection the descriptor stands for. -/
def State.peer (s : State n) (sockfd : Socket) : Option ℕ :=
  if sockfd ∈ s.server.fds then s.owner sockfd else none

/-- The clients whose descriptors the step closes. -/
def State.closedBy (s : State n) (t : ServerH.State n) : List ℕ :=
  (t.log.drop s.server.log.length).filterMap fun
    | .close sockfd => s.peer sockfd
    | .obtain _ => none

/-- The state behind a step of the server. -/
def State.after (s : State n) (i : ServerH.Act n) (t : ServerH.State n) : State n :=
  { s with
    server := t
    accepted := s.accepted ++ (match i with | .accept sockfd => [sockfd] | _ => [])
    owner :=
      match i with
      | .accept sockfd => Function.update s.owner sockfd (some s.accepted.length)
      | _ => s.owner
    lost := s.lost ++ s.closedBy t
    departed := s.departed ++
      (match i with | .cell _ (.leave sockfd) => (s.peer sockfd).toList | _ => []) }

def step (s : State n) : Act n → Option (State n)
  | .server i => (ServerH.step s.server i).map (s.after i)
  | .addSendTask k sockfd =>
    if ¬ s.server.terminated ∧ s.server.locs k = .read ∧
        sockfd ∈ (s.server.cellservers k).clients then
      (s.peer sockfd).map fun c =>
        { s with tasks := Function.update s.tasks k (s.tasks k ++ [c]) }
    else none
  | .doTask k c =>
    if ¬ s.server.terminated ∧ c ∈ s.tasks k then
      (s.accepted[c]?).map fun sockfd => { s with sends := s.sends ++ [(c, s.peer sockfd)] }
    else none

end SendTasks

namespace SendTasks

variable {s t : State n} {u v : ServerH.State n} {k : Fin (n + 1)} {sockfd d : Socket} {c : ℕ}

/-! ## The descriptors of the server -/

/-- The descriptor is that of a client that is waiting or being served. -/
def Holds (u : ServerH.State n) (d : Socket) : Prop :=
  (∃ p, u.accepted = some p ∧ p.sockfd = d) ∨ ∃ k, d ∈ (u.cellservers k).sockets

theorem Holds.of_mem (h : d ∈ (u.cellservers k).clients) : Holds u d :=
  .inr ⟨k, CellServer.mem_sockets_of_mem h⟩

/-- These descriptors are closed, and no client is new. -/
structure Closes (u v : ServerH.State n) (closed : List Socket) : Prop where
  fds : v.fds = u.fds \ closed.toFinset
  log : v.log = u.log ++ closed.map .close
  sock : v.sock = u.sock
  holds : ∀ d, Holds v d → Holds u d

theorem closes_nil (hfds : v.fds = u.fds) (hlog : v.log = u.log) (hsock : v.sock = u.sock)
    (haccepted : v.accepted = u.accepted)
    (hsockets : ∀ k, (v.cellservers k).sockets ⊆ (u.cellservers k).sockets) : Closes u v [] := by
  refine ⟨by simp [hfds], by simp [hlog], hsock, fun d hd => ?_⟩
  rw [Holds, haccepted] at hd
  exact hd.imp_right fun ⟨k, hk⟩ => ⟨k, hsockets k hk⟩

theorem sockets_setCell_subset {x : CellServer} (h : x.sockets ⊆ (u.cellservers k).sockets)
    (j : Fin (n + 1)) : ((u.setCell k x).cellservers j).sockets ⊆ (u.cellservers j).sockets := by
  rw [setCell_apply]
  split_ifs with hjk
  · rw [hjk]
    exact h
  · exact List.Subset.refl _

/-- `Close_sock` of a `Cell_Server`. -/
theorem Closes.cellCloseSock (h : Inv u) (k : Fin (n + 1)) :
    Closes u (cellCloseSock u k) ((u.cellservers k).clients.keys ++ [u.sock]) := by
  rw [← h.closed k]
  refine ⟨rfl, rfl, rfl, fun d hd => hd.imp_right fun ⟨j, hj⟩ => ⟨j, ?_⟩⟩
  rw [cellCloseSock_apply] at hj
  split_ifs at hj with hjk
  · rw [hjk]
    exact List.mem_append_right _ hj
  · exact hj

/-- What follows `Close_sock` closes nothing. -/
theorem Closes.trans_nil {w : ServerH.State n} {closed : List Socket} (h : Closes u v closed)
    (h' : Closes v w []) : Closes u w closed :=
  ⟨by rw [h'.fds, h.fds]; simp, by rw [h'.log, h.log]; simp, h'.sock.trans h.sock,
    fun d hd => h.holds d (h'.holds d hd)⟩

theorem closes_setLoc (loc : Loc) : Closes u (u.setLoc k loc) [] :=
  closes_nil rfl rfl rfl rfl fun _ => List.Subset.refl _

/-- The steps that close a client. -/
def Closing : CellAct → Prop
  | .selectFails | .closeSock => True
  | _ => False

/-- What is closed by a step that accepts nobody: the listening socket, or also the clients of
a `Cell_Server`. -/
theorem closes_of_effect (h : Inv u) {i : ServerH.Act n} (hi : ∀ sockfd, i ≠ .accept sockfd)
    (heffect : Effect u v i) : ∃ closed, Closes u v closed ∧ ∀ d ∈ closed, d = u.sock ∨
      ∃ k a, i = .cell k a ∧ Closing a ∧ d ∈ (u.cellservers k).clients := by
  have hcell (k : Fin (n + 1)) {a : CellAct} (ha : Closing a) :
      ∀ d ∈ (u.cellservers k).clients.keys ++ [u.sock], d = u.sock ∨
        ∃ k' a', (.cell k a : ServerH.Act n) = .cell k' a' ∧ Closing a' ∧
          d ∈ (u.cellservers k').clients := by
    intro d hd
    rcases List.mem_append.mp hd with hd | hd
    · exact .inr ⟨k, a, rfl, ha, Std.TreeMap.mem_keys.mp hd⟩
    · exact .inl (List.mem_singleton.mp hd)
  have hnone {P : Socket → Prop} : ∀ d ∈ ([] : List Socket), P d :=
    fun _ hd => absurd hd List.not_mem_nil
  have hlisten : Closes u (closeSock u) [u.sock] ∧ ∀ d ∈ [u.sock], d = u.sock ∨
      ∃ k a, i = .cell k a ∧ Closing a ∧ d ∈ (u.cellservers k).clients := by
    refine ⟨?_, fun d hd => .inl (List.mem_singleton.mp hd)⟩
    rw [closeSock, if_pos h.valid]
    exact ⟨rfl, rfl, rfl, fun d hd => hd⟩
  cases heffect with
  | accept => exact absurd rfl (hi _)
  | addClinetToCellserver _ _ ht =>
    exact ⟨[], ht ▸ closes_nil rfl rfl rfl rfl fun _ => List.Subset.refl _, hnone⟩
  | compare _ _ _ ht =>
    exact ⟨[], ht ▸ closes_nil rfl rfl rfl rfl fun _ => List.Subset.refl _, hnone⟩
  | addClient _ p _ _ hp ht =>
    refine ⟨[], ht ▸ ⟨by simp, by simp, rfl, fun d hd => ?_⟩, hnone⟩
    rcases hd with ⟨q, hq, -⟩ | ⟨k, hk⟩
    · exact absurd hq.symm (Option.some_ne_none q)
    · rcases mem_sockets_addClientTo p hk with hk | ⟨-, rfl⟩
      · exact .inr ⟨k, hk⟩
      · exact .inl ⟨p, hp, rfl⟩
  | closeSock ht => exact ⟨_, ht ▸ hlisten.1, hlisten.2⟩
  | destroy ht =>
    exact ⟨_, hlisten.1.trans_nil (ht ▸ closes_nil rfl rfl rfl rfl fun _ => List.Subset.refl _),
      hlisten.2⟩
  | @cell k a heffect =>
    cases heffect with
    | merge _ ht =>
      have hperm := CellServer.sockets_merge_perm (h.nodup k)
      exact ⟨[], ht ▸ closes_nil rfl rfl rfl rfl (sockets_setCell_subset hperm.subset), hnone⟩
    | select _ _ ht => exact ⟨[], ht ▸ closes_setLoc _, hnone⟩
    | ready _ ht => exact ⟨[], ht ▸ closes_setLoc _, hnone⟩
    | passed _ ht => exact ⟨[], ht ▸ closes_setLoc _, hnone⟩
    | leave _ hin ht =>
      have hperm := CellServer.sockets_erase_perm hin
      have hsub := sockets_setCell_subset (u := u) (k := k)
        fun d hd => hperm.mem_iff.mpr (List.mem_cons_of_mem _ hd)
      exact ⟨[], ht ▸ closes_nil rfl rfl rfl rfl hsub, hnone⟩
    | selectFails _ ht =>
      exact ⟨_, ht ▸ (Closes.cellCloseSock h k).trans_nil (closes_setLoc _), hcell k trivial⟩
    | closeSock ht => exact ⟨_, ht ▸ Closes.cellCloseSock h k, hcell k trivial⟩
    | destroy ht =>
      exact ⟨[], ht ▸ closes_nil rfl rfl rfl rfl fun _ => List.Subset.refl _, hnone⟩

/-! ## The invariant -/

structure Own (s : State n) : Prop where
  inv : Inv s.server
  /-- A descriptor was last given to a client whose descriptor it is. -/
  owner : ∀ d c, s.owner d = some c → s.accepted[c]? = some d
  listening : s.owner s.server.sock = none
  peer : ∀ c d, s.accepted[c]? = some d → (s.peer d = some c ↔ c ∉ s.lost)
  lost : ∀ c ∈ s.lost, c < s.accepted.length
  departed : ∀ c ∈ s.departed, c ∉ s.lost ∧ ∃ d, s.accepted[c]? = some d ∧ ¬ Holds s.server d
  tasks : ∀ k, ∀ c ∈ s.tasks k, c < s.accepted.length
  sends : ∀ q ∈ s.sends, q.2 = some q.1 ∨ q.1 ∈ s.lost

theorem peer_eq_some {s : State n} : s.peer d = some c ↔ d ∈ s.server.fds ∧ s.owner d = some c :=
  Option.ite_none_right_eq_some

theorem Own.accepted (h : Own s) (hd : s.peer d = some c) : s.accepted[c]? = some d :=
  h.owner d c (peer_eq_some.mp hd).2

theorem getElem?_concat {α : Type*} {l : List α} {x y : α} {m : ℕ} :
    (l ++ [x])[m]? = some y ↔ l[m]? = some y ∨ m = l.length ∧ y = x := by
  rcases lt_trichotomy m l.length with hlt | rfl | hlt
  · rw [List.getElem?_append_left hlt]
    exact (or_iff_left fun heq => hlt.ne heq.1).symm
  · simp [eq_comm]
  · have hle : (l ++ [x]).length ≤ m := by
      rw [List.length_append]
      exact hlt
    rw [List.getElem?_eq_none hle, List.getElem?_eq_none hlt.le]
    simp [hlt.ne']

/-- A descriptor that is closed is lost for the client it was given to. -/
theorem mem_closedBy {closed : List Socket} (hcloses : Closes s.server v closed) :
    c ∈ s.closedBy v ↔ ∃ d ∈ closed, s.peer d = some c := by
  rw [State.closedBy, hcloses.log, List.drop_left, List.mem_filterMap]
  simp only [List.mem_map, exists_exists_and_eq_and]

/-- Nobody is lost with the listening socket. -/
theorem Own.peer_listening (h : Own s) : s.peer s.server.sock = none := by
  rw [State.peer, h.listening, ite_self]

section Server

variable {i : ServerH.Act n}

theorem accepted_after (hi : ∀ sockfd, i ≠ .accept sockfd) :
    (s.after i v).accepted = s.accepted := by
  cases i with
  | accept sockfd => exact absurd rfl (hi sockfd)
  | _ => exact List.append_nil _

theorem owner_after (hi : ∀ sockfd, i ≠ .accept sockfd) : (s.after i v).owner = s.owner := by
  cases i with
  | accept sockfd => exact absurd rfl (hi sockfd)
  | _ => rfl

theorem mem_lost_after : c ∈ (s.after i v).lost ↔ c ∈ s.lost ∨ c ∈ s.closedBy v :=
  List.mem_append

theorem mem_departed_after (hc : c ∈ (s.after i v).departed) : c ∈ s.departed ∨
    ∃ k d, i = .cell k (.leave d) ∧ s.peer d = some c := by
  rcases List.mem_append.mp hc with hc | hc
  · exact .inl hc
  · cases i with
    | cell k a =>
      cases a with
      | leave d => exact .inr ⟨k, d, rfl, Option.mem_toList.mp hc⟩
      | _ => exact absurd hc List.not_mem_nil
    | _ => exact absurd hc List.not_mem_nil

theorem peer_after (hi : ∀ sockfd, i ≠ .accept sockfd) {closed : List Socket}
    (hcloses : Closes s.server v closed) :
    (s.after i v).peer d = some c ↔ d ∉ closed ∧ s.peer d = some c := by
  rw [peer_eq_some, peer_eq_some, owner_after hi]
  show d ∈ v.fds ∧ _ ↔ _
  rw [hcloses.fds, Finset.mem_sdiff, List.mem_toFinset, and_comm (a := d ∈ s.server.fds), and_assoc]

/-- **Who is lost was being served** by a `Cell_Server` that has closed its clients. -/
theorem Own.served_of_closedBy (h : Own s) (hi : ∀ sockfd, i ≠ .accept sockfd)
    (heffect : Effect s.server v i) (hc : c ∈ s.closedBy v) :
    ∃ k a, i = .cell k a ∧ Closing a ∧
      ∃ d, s.accepted[c]? = some d ∧ d ∈ (s.server.cellservers k).clients := by
  obtain ⟨closed, hcloses, hclosed⟩ := closes_of_effect h.inv hi heffect
  obtain ⟨d, hd, hpeer⟩ := (mem_closedBy hcloses).mp hc
  rcases hclosed d hd with rfl | ⟨k, a, hka, ha, hin⟩
  · exact absurd (h.peer_listening.symm.trans hpeer).symm (Option.some_ne_none c)
  · exact ⟨k, a, hka, ha, d, h.accepted hpeer, hin⟩

/-- A client that leaves is held by nobody. -/
theorem not_holds_of_leave (h : Inv u) (heffect : Effect u v (.cell k (.leave d))) :
    ¬ Holds v d := by
  cases heffect with
  | cell heffect =>
    cases heffect with
    | leave hloc hin ht =>
      have hsocket := CellServer.mem_sockets_of_mem hin
      rintro (⟨p, hp, rfl⟩ | ⟨j, hj⟩)
      · rw [ht] at hp
        exact (h.accepted p hp).2.2 k hsocket
      · have hj' : d ∈ ((u.setCell k ((u.cellservers k).erase d)).cellservers j).sockets := by
          rw [ht] at hj
          exact hj
        rw [setCell_apply] at hj'
        split_ifs at hj' with hjk
        · have hnodup := (CellServer.sockets_erase_perm hin).nodup_iff.mp (h.nodup k)
          exact (List.nodup_cons.mp hnodup).1 hj'
        · exact h.disjoint j k hjk hj' hsocket

/-- Who has left is not lost. -/
theorem Own.departed_after (h : Own s) (hi : ∀ sockfd, i ≠ .accept sockfd)
    (heffect : Effect s.server v i) (hc : c ∈ (s.after i v).departed) :
    c ∉ (s.after i v).lost ∧ ∃ d, s.accepted[c]? = some d ∧ ¬ Holds v d := by
  obtain ⟨closed, hcloses, -⟩ := closes_of_effect h.inv hi heffect
  rw [mem_lost_after, not_or]
  rcases mem_departed_after hc with hc | ⟨k, d, rfl, hd⟩
  · obtain ⟨hlost, d, hd, hout⟩ := h.departed c hc
    refine ⟨⟨hlost, fun hclosed => ?_⟩, d, hd, fun hin => hout (hcloses.holds d hin)⟩
    obtain ⟨k, a, -, -, d', hd', hin⟩ := h.served_of_closedBy hi heffect hclosed
    obtain rfl : d = d' := Option.some.inj (hd.symm.trans hd')
    exact hout (.of_mem hin)
  · refine ⟨⟨(h.peer c d (h.accepted hd)).mp hd, fun hclosed => ?_⟩, d, h.accepted hd,
      not_holds_of_leave h.inv heffect⟩
    obtain ⟨k', a, hka, ha, -⟩ := h.served_of_closedBy hi heffect hclosed
    obtain ⟨rfl, rfl⟩ := ServerH.Act.cell.inj hka
    exact ha

/-- A step of the server that accepts nobody. -/
theorem Own.server (h : Own s) (hi : ∀ sockfd, i ≠ .accept sockfd)
    (hstep : ServerH.step s.server i = some v) : Own (s.after i v) := by
  have heffect := effect_of_step hstep
  obtain ⟨closed, hcloses, -⟩ := closes_of_effect h.inv hi heffect
  refine ⟨h.inv.next hstep, ?_, ?_, fun c d hd => ?_, fun c hc => ?_, fun c hc => ?_, ?_,
    fun q hq => ?_⟩
  · rw [owner_after hi, accepted_after hi]
    exact h.owner
  · rw [owner_after hi]
    exact hcloses.sock ▸ h.listening
  · rw [accepted_after hi] at hd
    rw [peer_after hi hcloses, mem_lost_after, mem_closedBy hcloses, not_or, ← h.peer c d hd]
    constructor
    · rintro ⟨hout, hd'⟩
      refine ⟨hd', ?_⟩
      rintro ⟨d', hin, hd''⟩
      obtain rfl : d = d' := Option.some.inj (hd.symm.trans (h.accepted hd''))
      exact hout hin
    · rintro ⟨hd', hout⟩
      exact ⟨fun hin => hout ⟨d, hin, hd'⟩, hd'⟩
  · rw [accepted_after hi]
    rcases mem_lost_after.mp hc with hc | hc
    · exact h.lost c hc
    · obtain ⟨k, a, -, -, d, hd, -⟩ := h.served_of_closedBy hi heffect hc
      exact (List.getElem?_eq_some_iff.mp hd).1
  · rw [accepted_after hi]
    exact h.departed_after hi heffect hc
  · rw [accepted_after hi]
    exact h.tasks
  · exact (h.sends q hq).imp_right fun hin => mem_lost_after.mpr (.inl hin)

/-- Accepting a client closes nothing. -/
theorem closedBy_accept (heffect : Effect s.server v (.accept sockfd)) : s.closedBy v = [] := by
  cases heffect with
  | accept _ hopen hnew ht =>
    rw [State.closedBy, ht]
    simp

/-- **A client is accepted**, on a descriptor that nobody has. -/
theorem Own.accept (h : Own s) (hstep : ServerH.step s.server (.accept sockfd) = some v) :
    Own (s.after (.accept sockfd) v) := by
  have hclosed := closedBy_accept (effect_of_step hstep)
  have hlost : (s.after (.accept sockfd) v).lost = s.lost := by
    show s.lost ++ s.closedBy v = s.lost
    rw [hclosed, List.append_nil]
  cases effect_of_step hstep with
  | accept _ hopen hnew ht =>
    have hinv := h.inv.next hstep
    have hfds : v.fds = insert sockfd s.server.fds := by rw [ht]
    have hlistening : s.server.sock ≠ sockfd := ne_of_mem_of_not_mem hopen hnew
    have hlength : (s.after (.accept sockfd) v).accepted.length = s.accepted.length + 1 :=
      List.length_append
    have hlast : (s.accepted ++ [sockfd])[s.accepted.length]? = some sockfd :=
      List.getElem?_concat_length
    have hold {c : ℕ} {d : Socket} (hd : s.accepted[c]? = some d) :
        (s.accepted ++ [sockfd])[c]? = some d := by
      rw [List.getElem?_append_left (List.getElem?_eq_some_iff.mp hd).1]
      exact hd
    refine ⟨hinv, fun d c hd => ?_, ?_, fun c d hd => ?_, fun c hc => ?_, fun c hc => ?_,
      fun k c hc => ?_, fun q hq => ?_⟩
    · show (s.accepted ++ [sockfd])[c]? = some d
      have hd' : Function.update s.owner sockfd (some s.accepted.length) d = some c := hd
      by_cases hds : d = sockfd
      · rw [hds, Function.update_self] at hd'
        rw [← Option.some.inj hd', hds]
        exact hlast
      · rw [Function.update_of_ne hds] at hd'
        exact hold (h.owner d c hd')
    · show Function.update s.owner sockfd (some s.accepted.length) v.sock = none
      rw [ht, Function.update_of_ne hlistening]
      exact h.listening
    · rw [hlost, peer_eq_some]
      show d ∈ v.fds ∧ Function.update s.owner sockfd (some s.accepted.length) d = some c ↔ _
      have hd' : (s.accepted ++ [sockfd])[c]? = some d := hd
      rw [hfds, Finset.mem_insert]
      rcases getElem?_concat.mp hd' with hbefore | ⟨rfl, rfl⟩
      · rw [← h.peer c d hbefore, peer_eq_some]
        by_cases hds : d = sockfd
        · subst hds
          rw [Function.update_self]
          have hlt : c < s.accepted.length := (List.getElem?_eq_some_iff.mp hbefore).1
          refine iff_of_false (fun heq => ?_) fun hin => hnew hin.1
          exact absurd (Option.some.inj heq.2) hlt.ne'
        · rw [Function.update_of_ne hds, or_iff_right hds]
      · rw [Function.update_self]
        exact iff_of_true ⟨.inl rfl, rfl⟩ fun hin => lt_irrefl _ (h.lost _ hin)
    · exact hlength ▸ Nat.lt_succ_of_lt (h.lost c (hlost ▸ hc))
    · rw [hlost]
      have hc' : c ∈ s.departed := by
        rcases List.mem_append.mp hc with hc | hc
        · exact hc
        · exact absurd hc List.not_mem_nil
      obtain ⟨hout, d, hd, hheld⟩ := h.departed c hc'
      refine ⟨hout, d, hold hd, ?_⟩
      rintro (⟨p, hp, rfl⟩ | hin)
      · rw [ht] at hp
        obtain rfl := Option.some.inj hp
        exact hnew (peer_eq_some.mp ((h.peer c _ hd).mpr hout)).1
      · rw [ht] at hin
        exact hheld (.inr hin)
    · exact hlength ▸ Nat.lt_succ_of_lt (h.tasks k c hc)
    · rw [hlost]
      exact h.sends q hq

theorem Own.server_step (h : Own s) (hstep : ServerH.step s.server i = some v) :
    Own (s.after i v) := by
  cases i with
  | accept sockfd => exact h.accept hstep
  | _ => exact h.server (fun _ heq => (by cases heq)) hstep

end Server

/-! ## Tasks -/

/-- A task is queued for the client that has sent the message. -/
theorem Own.addSendTask (h : Own s) (hstep : step s (.addSendTask k sockfd) = some t) : Own t := by
  simp only [step, Option.ite_none_right_eq_some, Option.map_eq_some_iff] at hstep
  obtain ⟨-, c, hc, rfl⟩ := hstep
  refine ⟨h.inv, h.owner, h.listening, h.peer, h.lost, h.departed, fun j c' hc' => ?_, h.sends⟩
  by_cases hjk : j = k
  · subst hjk
    have hc'' : c' ∈ s.tasks j ++ [c] := by
      rw [← Function.update_self (f := s.tasks) j (s.tasks j ++ [c])]
      exact hc'
    rcases List.mem_append.mp hc'' with hin | hin
    · exact h.tasks j c' hin
    · rw [List.mem_singleton.mp hin]
      exact (List.getElem?_eq_some_iff.mp (h.accepted hc)).1
  · refine h.tasks j c' ?_
    rw [← Function.update_of_ne hjk (s.tasks k ++ [c]) s.tasks]
    exact hc'

/-- A task runs. -/
theorem Own.doTask (h : Own s) (hstep : step s (.doTask k c) = some t) : Own t := by
  simp only [step, Option.ite_none_right_eq_some, Option.map_eq_some_iff] at hstep
  obtain ⟨-, d, hd, rfl⟩ := hstep
  refine ⟨h.inv, h.owner, h.listening, h.peer, h.lost, h.departed, h.tasks, fun q hq => ?_⟩
  rcases List.mem_append.mp hq with hq | hq
  · exact h.sends q hq
  · obtain rfl := List.mem_singleton.mp hq
    by_cases hc : c ∈ s.lost
    · exact .inr hc
    · exact .inl ((h.peer c d hd).mpr hc)

theorem Own.next (h : Own s) {i : Act n} (hstep : step s i = some t) : Own t := by
  cases i with
  | server i =>
    obtain ⟨v, hv, rfl⟩ := Option.map_eq_some_iff.mp hstep
    exact h.server_step hv
  | addSendTask k sockfd => exact h.addSendTask hstep
  | doTask k c => exact h.doTask hstep

/-! ## Runs -/

variable {sock : Socket}

end SendTasks
end ServerH
end EasyTcpServer
