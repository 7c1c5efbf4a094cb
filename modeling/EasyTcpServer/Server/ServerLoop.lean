import EasyTcpServer.Server.SendTask

/-!
# The loop of a server, with its clock and its descriptor sets

The machine below is the thread of a server as in `Lifecycle`, together with what that leaves
out: the clock readings, the heartbeat counters of the clients, `_max_sock`, and the three sets
that `select` is called with.  Other threads add clients, handlers call `resetDtHeart`, and when
`ClearClients` has ended the thread may be started again.

* A reading of the clock is any number; it may be smaller than the one before.
* How `FD_SET` puts a descriptor into a set is a parameter.  With `fdSet` the machine is the
  thread of `Lifecycle`.
* `watch` is what the program itself does not know of a client: the value `_oldTime` had when
  the client was merged, was reset by a handler, and was last heard of, and the readings of
  `CheckTime` since the merge.  `pass` is what a pass of `CheckTime` finds.
-/

namespace EasyTcpServer

open CellServer (Loc ClearLoc Env)
open CellThread (Worker)

/-- `CLIENT_HREAT_DEAD_TIME`. -/
def clientHeartDeadTime : ℤ := 60000

/-- `checkHeart(dt)`: the counter, and what is returned. -/
def checkHeart (dtHeart dt : ℤ) : ℤ × Bool :=
  (dtHeart + dt, decide (clientHeartDeadTime ≤ dtHeart + dt))

namespace CellServer

/-- The sockets of the clients, in the order of the map. -/
def sockets (d : CellServer) : List Socket := d.clients.toList.map fun p => p.2.sockfd

/-- The descriptor sets, when `FD_SET` is `insert`. -/
def gatherWith (insert : List Socket → Socket → List Socket) (d : CellServer) : CellServer :=
  if d.clientChange then
    { d with clientChange := false, fdReadBak := d.sockets.foldl insert [] }
  else d

example (d : CellServer) : d.gather = d.gatherWith fdSet := rfl

/-- `_max_sock` behind the loop that builds the sets: it starts with the first socket. -/
def scanMaxSock (socks : List Socket) : Socket :=
  socks.foldl (fun maxSock sockfd => if maxSock < sockfd then sockfd else maxSock) (socks.headD 0)

theorem same_gatherWith (insert : List Socket → Socket → List Socket) (d : CellServer) :
    Same d (d.gatherWith insert) := by
  unfold gatherWith
  split_ifs
  · exact ⟨rfl, rfl, rfl, rfl, rfl⟩
  · exact .refl d

end CellServer

namespace ServerLoop

/-- What is known of a client. -/
structure Watch where
  /-- `_oldTime` when it was merged. -/
  mergedAt : ℤ
  /-- The readings of `CheckTime` since. -/
  readings : List ℤ
  /-- `_oldTime` when a handler last called `resetDtHeart`. -/
  resetAt : Option ℤ
  /-- `_oldTime` when `RecvData` last returned bytes. -/
  heardAt : Option ℤ
  deriving DecidableEq, Repr

/-- Since when the heartbeat counter is running. -/
def Watch.base (w : Watch) : ℤ := w.resetAt.getD w.mergedAt

/-- What a pass of `CheckTime` finds. -/
structure Pass where
  clients : List (Socket × ClientPtr)
  dtHeart : ClientPtr → ℤ
  log : List Event

structure State where
  thread : Lifecycle.State
  oldTime : ℤ
  /-- The local variable of `CheckTime`. -/
  dt : ℤ
  dtHeart : ClientPtr → ℤ
  maxSock : Socket
  /-- The sets `select` is called with. -/
  fdRead : List Socket
  fdWrite : List Socket
  fdExc : List Socket
  watch : ClientPtr → Watch
  pass : Pass

inductive Act where
  /-- A step that neither reads the clock nor builds the sets, and is not `checkHeart`. -/
  | thread (a : Lifecycle.Act)
  /-- The test whether there is a client.  If there is none the clock is read; else the sets are
  built. -/
  | gather (now : ℤ)
  /-- `CheckTime` reads the clock. -/
  | checkTime (now : ℤ)
  /-- `CheckTime` comes to the next client. -/
  | heart
  /-- The handler of a message calls `resetDtHeart` on a client. -/
  | resetDtHeart (c : ClientPtr)
  /-- The thread, which has ended, is started again. -/
  | restart

/-- The places whose steps are not those of `Lifecycle`. -/
def Timed : Loc → Prop
  | .gather | .write [] none | .checkTime (_ :: _) => True
  | _ => False

instance (l : Loc) : Decidable (Timed l) := by
  unfold Timed
  split <;> infer_instance

def OwnStep (t : Lifecycle.State) : Lifecycle.Act → Prop
  | .run _ _ =>
    match t.worker with
    | .onRun l => Timed l
    | _ => False
  | _ => False

instance (t : Lifecycle.State) : (a : Lifecycle.Act) → Decidable (OwnStep t a)
  | .run _ _ =>
    match hw : t.worker with
    | .onRun l => decidable_of_iff (Timed l) (by rw [OwnStep, hw])
    | .onCreate | .exiting _ | .onDestory _ | .wakeup | .done =>
      .isFalse (by rw [OwnStep, hw]; exact id)
  | .exit | .destroy _ | .add _ _ => .isFalse id

/-- The clients a step puts into the map. -/
def merges (t : Lifecycle.State) : Lifecycle.Act → List ClientPtr
  | .run _ _ =>
    match t.worker with
    | .onRun .merge => t.data.clientsBuff
    | _ => []
  | _ => []

/-- The client a step receives bytes from. -/
def hears (t : Lifecycle.State) : Lifecycle.Act → Option ClientPtr
  | .run _ (.recv nLen) =>
    match t.worker with
    | .onRun (.read (sockfd :: _) _ _) => if 0 < nLen then t.data.clients[sockfd]? else none
    | _ => none
  | _ => none

/-- The state behind a step of `Lifecycle`.  The counter of a client that is added is zero. -/
def State.after (s : State) (a : Lifecycle.Act) (t : Lifecycle.State) : State :=
  { s with
    thread := t
    dtHeart :=
      match a with
      | .add c _ => Function.update s.dtHeart c 0
      | _ => s.dtHeart
    watch := fun c =>
      if c ∈ merges s.thread a then ⟨s.oldTime, [], none, none⟩
      else if hears s.thread a = some c then { s.watch c with heardAt := some s.oldTime }
      else s.watch c }

variable (insert : List Socket → Socket → List Socket)

/-- The sets are built, or copied. -/
def State.gather (s : State) : State :=
  let d := s.thread.data.gatherWith insert
  { s with
    thread := { s.thread with data := d, worker := .onRun (.select d.fdReadBak) }
    maxSock :=
      if s.thread.data.clientChange then CellServer.scanMaxSock s.thread.data.sockets
      else s.maxSock
    fdRead := d.fdReadBak
    fdWrite := d.fdReadBak
    fdExc := d.fdReadBak }

/-- `CheckTime` up to its loop. -/
def State.checkTime (s : State) (now : ℤ) (t : Lifecycle.State) : State :=
  { s with
    thread := t
    oldTime := now
    dt := now - s.oldTime
    watch := fun c => { s.watch c with readings := (s.watch c).readings ++ [now] }
    pass := ⟨s.thread.data.clients.toList, s.dtHeart, s.thread.data.log⟩ }

def step (s : State) : Act → Option State
  | .thread a =>
    if OwnStep s.thread a then none else (Lifecycle.step s.thread a).map (s.after a)
  | .gather now =>
    match s.thread.worker with
    | .onRun .gather =>
      if s.thread.data.clients.isEmpty then
        (Lifecycle.step s.thread (.run true .tau)).map fun t =>
          { s with thread := t, oldTime := now }
      else some (s.gather insert)
    | _ => none
  | .checkTime now =>
    match s.thread.worker with
    | .onRun (.write [] none) =>
      (Lifecycle.step s.thread (.run true .tau)).map (s.checkTime now)
    | _ => none
  | .heart =>
    match s.thread.worker with
    | .onRun (.checkTime (sockfd :: _)) =>
      match s.thread.data.clients[sockfd]? with
      | none => (Lifecycle.step s.thread (.run true .tau)).map fun t => { s with thread := t }
      | some c =>
        let r := checkHeart (s.dtHeart c) s.dt
        (Lifecycle.step s.thread (.run true (.heart r.2))).map fun t =>
          { s with thread := t, dtHeart := Function.update s.dtHeart c r.1 }
    | _ => none
  | .resetDtHeart c =>
    if Reply.InNetMsg s.thread ∧ s.thread.data.clients[c.sockfd]? = some c then
      some { s with
        dtHeart := Function.update s.dtHeart c 0
        watch := Function.update s.watch c { s.watch c with resetAt := some s.oldTime } }
    else none
  | .restart =>
    match s.thread.worker with
    | .wakeup => some { s with thread := { s.thread with worker := .onRun .loop } }
    | _ => none

end ServerLoop

/-- A new server at the time `now`, whose `_max_sock` is arbitrary. -/
def serverLoop (insert : List Socket → Socket → List Socket) (now : ℤ) (maxSock : Socket) :
    Machine ServerLoop.State ServerLoop.Act where
  init := ⟨serverThread.init, now, 0, fun _ => 0, maxSock, [], [], [], fun _ => ⟨0, [], none, none⟩,
    ⟨[], fun _ => 0, []⟩⟩
  step := ServerLoop.step insert

namespace ServerLoop

variable {insert : List Socket → Socket → List Socket} {s t : State}

/-! ## Steps -/

/-- **What a step does.** -/
inductive Step (insert : List Socket → Socket → List Socket) (s : State) : Act → State → Prop where
  | thread {a : Lifecycle.Act} {t : Lifecycle.State} : ¬ OwnStep s.thread a →
      Lifecycle.step s.thread a = some t → Step insert s (.thread a) (s.after a t)
  | idle {now : ℤ} : s.thread.worker = .onRun .gather → s.thread.data.clients.isEmpty = true →
      Step insert s (.gather now)
        { s with thread := { s.thread with worker := .onRun .loop }, oldTime := now }
  | gather {now : ℤ} : s.thread.worker = .onRun .gather →
      s.thread.data.clients.isEmpty = false → Step insert s (.gather now) (s.gather insert)
  | checkTime {now : ℤ} : s.thread.worker = .onRun (.write [] none) →
      Step insert s (.checkTime now) (s.checkTime now
        { s.thread with worker := .onRun (.checkTime s.thread.data.clients.keys) })
  | skip {sockfd : Socket} {keys : List Socket} :
      s.thread.worker = .onRun (.checkTime (sockfd :: keys)) →
      s.thread.data.clients[sockfd]? = none →
      Step insert s .heart { s with thread := { s.thread with worker := .onRun (.checkTime keys) } }
  | keep {sockfd : Socket} {keys : List Socket} {c : ClientPtr} :
      s.thread.worker = .onRun (.checkTime (sockfd :: keys)) →
      s.thread.data.clients[sockfd]? = some c → s.dtHeart c + s.dt < clientHeartDeadTime →
      Step insert s .heart { s with
        thread := { s.thread with
          data := s.thread.data.record [.heart c], worker := .onRun (.checkTime keys) }
        dtHeart := Function.update s.dtHeart c (s.dtHeart c + s.dt) }
  | remove {sockfd : Socket} {keys : List Socket} {c : ClientPtr} :
      s.thread.worker = .onRun (.checkTime (sockfd :: keys)) →
      s.thread.data.clients[sockfd]? = some c → clientHeartDeadTime ≤ s.dtHeart c + s.dt →
      Step insert s .heart { s with
        thread := { s.thread with
          data := (s.thread.data.record [.heart c]).onClientLeave c sockfd
          worker := .onRun (.checkTime keys) }
        dtHeart := Function.update s.dtHeart c (s.dtHeart c + s.dt) }
  | resetDtHeart {c : ClientPtr} : Reply.InNetMsg s.thread →
      s.thread.data.clients[c.sockfd]? = some c →
      Step insert s (.resetDtHeart c) { s with
        dtHeart := Function.update s.dtHeart c 0
        watch := Function.update s.watch c { s.watch c with resetAt := some s.oldTime } }
  | restart : s.thread.worker = .wakeup →
      Step insert s .restart { s with thread := { s.thread with worker := .onRun .loop } }

theorem step_cases {a : Act} (h : step insert s a = some t) : Step insert s a t := by
  cases a with
  | thread a =>
    rw [step, Option.ite_none_left_eq_some, Option.map_eq_some_iff] at h
    obtain ⟨hown, t', ht, rfl⟩ := h
    exact .thread hown ht
  | gather now =>
    simp only [step] at h
    split at h
    · next hw =>
      split_ifs at h with hempty
      · simp only [Lifecycle.step, hw, CellServer.onRun, if_pos hempty, Option.map_some,
          Option.some.injEq] at h
        rw [← h]
        exact .idle hw hempty
      · cases h
        exact .gather hw (Bool.eq_false_iff.mpr hempty)
    · cases h
  | checkTime now =>
    simp only [step] at h
    split at h
    · next hw =>
      simp only [Lifecycle.step, hw, CellServer.onRun, Option.map_some, Option.some.injEq] at h
      rw [← h]
      exact .checkTime hw
    · cases h
  | heart =>
    simp only [step] at h
    split at h
    · next sockfd keys hw =>
      split at h
      · next hnone =>
        simp only [Lifecycle.step, hw, CellServer.onRun, CellServer.checkTime, if_pos hnone,
          Option.map_some, Option.some.injEq] at h
        rw [← h]
        exact .skip hw hnone
      · next c hc =>
        by_cases hdead : clientHeartDeadTime ≤ s.dtHeart c + s.dt
        · simp only [Lifecycle.step, hw, CellServer.onRun, CellServer.checkTime, hc, checkHeart,
            hdead, decide_true, if_true, Option.map_some, Option.some.injEq] at h
          rw [← h]
          exact .remove hw hc hdead
        · simp only [Lifecycle.step, hw, CellServer.onRun, CellServer.checkTime, hc, checkHeart,
            hdead, decide_false, Bool.false_eq_true, if_false, Option.map_some,
            Option.some.injEq] at h
          rw [← h]
          exact .keep hw hc (not_le.mp hdead)
    · cases h
  | resetDtHeart c =>
    obtain ⟨⟨hmsg, hc⟩, rfl⟩ := Machine.guarded_eq_some.mp h
    exact .resetDtHeart hmsg hc
  | restart =>
    simp only [step] at h
    split at h
    · next hw =>
      cases h
      exact .restart hw
    · cases h

/-- A handler runs in the loop of `recvData`. -/
theorem worker_of_inNetMsg {u : Lifecycle.State} (h : Reply.InNetMsg u) :
    ∃ c fdRead fdWrite fdExc, u.worker = .onRun (.handle c fdRead fdWrite fdExc) := by
  unfold Reply.InNetMsg at h
  split at h
  · next c fdRead fdWrite fdExc hw => exact ⟨c, fdRead, fdWrite, fdExc, hw⟩
  · exact h.elim

/-! ## What is inherited from the thread -/

/-- The thread goes to a place of `onRun`, and nothing happens to a client. -/
theorem lifecycle_same {kept : List ClientPtr} {s : Lifecycle.State} {d : CellServer} {l : Loc}
    (hs : Lifecycle.Inv kept s) (hwalk : Lifecycle.walkOf s.worker = none)
    (hsame : CellServer.Same s.data d) (hl : Lifecycle.Handled d l) :
    Lifecycle.Inv kept { s with data := d, worker := .onRun l } := by
  have hnone : s.data.walk = none := hs.walk.trans hwalk
  obtain ⟨haccounted, hwalk'⟩ := (Lifecycle.Change.same hsame).accounted hs.accounted hnone
  refine ⟨hs.kept_added, haccounted, ?_, hwalk', fun k n hw => (by cases hw)⟩
  rintro l' (heq | heq) <;> cases heq
  exact hl

/-- The invariant of `Lifecycle`. -/
def Life (s : State) : Prop := ∃ kept, Lifecycle.Inv kept s.thread

theorem life_step {a : Act} (hs : Life s) (h : Step insert s a t) : Life t := by
  obtain ⟨kept, hs⟩ := hs
  cases h with
  | thread _ hstep =>
    obtain ⟨kept', hinv, -⟩ := Lifecycle.inv_step hs hstep
    exact ⟨kept', hinv⟩
  | idle hw =>
    exact ⟨kept, lifecycle_same hs (by rw [hw]; rfl) (.refl _) trivial⟩
  | gather hw =>
    exact ⟨kept, lifecycle_same hs (by rw [hw]; rfl) (CellServer.same_gatherWith insert _) trivial⟩
  | checkTime hw =>
    exact ⟨kept, lifecycle_same hs (by rw [hw]; rfl) (.refl _) trivial⟩
  | skip hw =>
    exact ⟨kept, lifecycle_same hs (by rw [hw]; rfl) (.refl _) trivial⟩
  | @keep sockfd keys c hw hc =>
    have hrun : s.thread.data.onRun true (.checkTime (sockfd :: keys)) (.heart false) =
        some (s.thread.data.record [.heart c], .goto (.checkTime keys)) := by
      rw [CellServer.onRun, CellServer.checkTime, hc]
      rfl
    exact ⟨kept, hs.run hw hrun⟩
  | @remove sockfd keys c hw hc =>
    have hrun : s.thread.data.onRun true (.checkTime (sockfd :: keys)) (.heart true) =
        some ((s.thread.data.record [.heart c]).onClientLeave c sockfd,
          .goto (.checkTime keys)) := by
      rw [CellServer.onRun, CellServer.checkTime, hc]
      rfl
    exact ⟨kept, hs.run hw hrun⟩
  | resetDtHeart => exact ⟨kept, hs⟩
  | restart hw =>
    exact ⟨kept, lifecycle_same hs (by rw [hw]; rfl) (.refl _) trivial⟩

/-! ## Steps of the thread, seen from the clients -/

/-- The sets of a server and its map are as they were. -/
structure Quiet (d d' : CellServer) : Prop where
  clients : d'.clients = d.clients
  clientChange : d'.clientChange = d.clientChange
  fdReadBak : d'.fdReadBak = d.fdReadBak

/-- What a step of `onRun` does that is not one of the steps above. -/
inductive Effect (d : CellServer) (l : Loc) : CellServer → Prop where
  | quiet {d' : CellServer} : l ≠ .merge → Quiet d d' → d'.clientsBuff = d.clientsBuff →
      Effect d l d'
  | merge : l = .merge → Effect d l d.merge
  | leave {k : Socket} {c : ClientPtr} {es : List Event} : l ≠ .merge →
      d.clients[k]? = some c → Effect d l ((d.record es).onClientLeave c k)

/-- It leads neither into `CheckTime` nor to `select`. -/
def Leads : Next Loc → Prop
  | .goto (.checkTime _) | .goto (.select _) => False
  | .exit l => l = .broken
  | _ => True

variable {d d' : CellServer} {l : Loc} {i : Env} {n : Next Loc} {isRun : Bool}

theorem Effect.refl (hl : l ≠ .merge) : Effect d l d := .quiet hl ⟨rfl, rfl, rfl⟩ rfl

/-- Only the `break` behind a failed `select` is preceded by `Exit`. -/
theorem Leads.exiting (hn : Leads n)
    (hw : (.ofRun .map n : Worker Loc ClearLoc) = .exiting l) : l = .broken := by
  cases n with
  | exit l' =>
    obtain rfl : l' = l := by simpa [Worker.ofRun] using hw
    exact hn
  | _ => cases hw

/-- Where it leads in `onRun`, if it does. -/
theorem Leads.onRun (hn : Leads n) (hw : (.ofRun .map n : Worker Loc ClearLoc) = .onRun l) :
    Leads (.goto l) := by
  cases n with
  | goto l' =>
    obtain rfl : l' = l := by simpa [Worker.ofRun] using hw
    exact hn
  | _ => cases hw

/-- `ClearClients` leads neither to `Exit` nor into `onRun`. -/
theorem ofDestory_ne (o : Option ClearLoc) (l : Loc) :
    (.ofDestory o : Worker Loc ClearLoc) ≠ .exiting l ∧
      (.ofDestory o : Worker Loc ClearLoc) ≠ .onRun l := by
  cases o <;> exact ⟨fun hw => (by cases hw), fun hw => (by cases hw)⟩

theorem onRun_effect (hl : ¬ Timed l) (h : d.onRun isRun l i = some (d', n)) :
    Effect d l d' ∧ Leads n := by
  cases l with
  | loop | test =>
    cases i <;> cases h
    refine ⟨.refl (by simp), ?_⟩
    split_ifs <;> trivial
  | merge =>
    cases i <;> cases h
    exact ⟨.merge rfl, trivial⟩
  | gather => exact absurd trivial hl
  | select fds =>
    cases i with
    | select ready =>
      rcases ready with _ | ⟨fdRead, fdWrite, fdExc⟩
      · cases h
        exact ⟨.refl (by simp), rfl⟩
      · rw [CellServer.onRun, Option.ite_none_right_eq_some] at h
        obtain ⟨-, h⟩ := h
        cases h
        exact ⟨.refl (by simp), trivial⟩
    | _ => cases h
  | broken =>
    cases i <;> cases h
    exact ⟨.refl (by simp), trivial⟩
  | read fdRead fdWrite fdExc =>
    cases fdRead with
    | nil =>
      cases i <;> cases h
      exact ⟨.refl (by simp), trivial⟩
    | cons sockfd fdRead =>
      rw [CellServer.onRun] at h
      cases i with
      | tau =>
        simp only [CellServer.readData, Option.ite_none_right_eq_some, Option.some.injEq,
          Prod.mk.injEq] at h
        obtain ⟨-, rfl, rfl⟩ := h
        exact ⟨.refl (by simp), trivial⟩
      | recv nLen =>
        obtain ⟨c, hc, h⟩ := Option.map_eq_some_iff.mp h
        split_ifs at h with hlen <;> cases h
        · exact ⟨.leave (by simp) hc, trivial⟩
        · exact ⟨.quiet (by simp) ⟨rfl, rfl, rfl⟩ rfl, trivial⟩
      | _ => cases h
  | handle c fdRead fdWrite fdExc =>
    cases i <;> cases h
    · exact ⟨.refl (by simp), trivial⟩
    · exact ⟨.quiet (by simp) ⟨rfl, rfl, rfl⟩ rfl, trivial⟩
  | write fdWrite fdExc =>
    cases fdWrite with
    | nil =>
      cases fdExc with
      | none => exact absurd trivial hl
      | some fdExc =>
        cases i <;> cases h
        exact ⟨.refl (by simp), trivial⟩
    | cons sockfd fdWrite =>
      rw [CellServer.onRun] at h
      cases i with
      | tau =>
        simp only [CellServer.writeData, Option.ite_none_right_eq_some, Option.some.injEq,
          Prod.mk.injEq] at h
        obtain ⟨-, rfl, rfl⟩ := h
        exact ⟨.refl (by simp), trivial⟩
      | send ret =>
        obtain ⟨c, hc, h⟩ := Option.map_eq_some_iff.mp h
        split_ifs at h with hret <;> cases h
        · exact ⟨.leave (by simp) hc, trivial⟩
        · exact ⟨.quiet (by simp) ⟨rfl, rfl, rfl⟩ rfl, trivial⟩
      | _ => cases h
  | checkTime keys =>
    cases keys with
    | nil =>
      cases i <;> cases h
      exact ⟨.refl (by simp), trivial⟩
    | cons sockfd keys => exact absurd trivial hl

end ServerLoop
end EasyTcpServer
