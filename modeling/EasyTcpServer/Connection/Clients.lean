import EasyTcpServer.Connection.Answers
import EasyTcpServer.Lib.Projection

/-!
# Many clients

The server of `Server.h` has several `Cell_Server`s, each with its clients and a task server of
its own.  The replies to all clients of a `Cell_Server` go through one task server
(`Connection.TaskServer`).  So the tasks of one client wait behind those of others; the clients
have nothing else in common, and a session (`Connection.Session`) is what each of them takes part
in.

* `clients`: the machine of all of them.
* `projection`: seen from one client it is a session.
* `clients_answers`: so every client finds the answers to what it has sent itself.
-/

namespace EasyTcpServer

universe u v w

/-- The connections of all clients, and the task servers. -/
structure Clients (κ : Type u) (ω : Type w) (T : TaskServer.{u, v} (κ × Message)) where
  connection : κ → Connection
  /-- A task is a queued message with its client. -/
  tasks : ω → T.State

namespace Clients

variable {κ : Type u} {ω : Type w} {T : TaskServer.{u, v} (κ × Message)}
  [DecidableEq κ] [DecidableEq ω]

/-- What can happen. -/
inductive Act (κ : Type u) (ω : Type w) where
  /-- A client, its connection, or its `Cell_Server` when it is at this client. -/
  | own (c : κ) (i : Session.Act)
  /-- The task thread of a `Cell_Server` runs the next task. -/
  | task (w : ω)

/-- The messages that are for a client. -/
def forClient (c : κ) (tasks : List (κ × Message)) : List Message :=
  tasks.filterMap fun p => if p.1 = c then some p.2 else none

/-- The session of one client. -/
def view (waiting : T.State → List (κ × Message)) (home : κ → ω) (c : κ) (s : Clients κ ω T) :
    Session where
  toConnection := s.connection c
  tasks := forClient c (waiting (s.tasks (home c)))

end Clients

open Clients in
/-- The server with all clients; `home` is the `Cell_Server` a client has been given to. -/
def clients {κ : Type u} {ω : Type w} [DecidableEq κ] [DecidableEq ω]
    (T : TaskServer.{u, v} (κ × Message)) (home : κ → ω)
    (mem mem' : κ → Vector UInt8 msgBufSize) : Machine (Clients κ ω T) (Act κ ω) where
  init := ⟨fun c => (session (mem c) (mem' c)).init.toConnection, fun _ => T.new⟩
  step s
    | .own _ .task => none
    | .own c i =>
      ((session (mem c) (mem' c)).step ⟨s.connection c, []⟩ i).map fun t =>
        { connection := Function.update s.connection c t.toConnection
          tasks := Function.update s.tasks (home c)
            (T.addTasks (s.tasks (home c)) (t.tasks.map (c, ·))) }
    | .task w => (T.doTask (s.tasks w)).bind fun r =>
      ((session (mem r.1.1) (mem' r.1.1)).step ⟨s.connection r.1.1, [r.1.2]⟩ .task).map fun t =>
        { connection := Function.update s.connection r.1.1 t.toConnection
          tasks := Function.update s.tasks w r.2 }

namespace Clients

variable {κ : Type u} {ω : Type w} {T : TaskServer.{u, v} (κ × Message)}
  {waiting : T.State → List (κ × Message)} [DecidableEq κ] [DecidableEq ω] {home : κ → ω}
  {mem mem' : κ → Vector UInt8 msgBufSize} {c d : κ} {s t : Clients κ ω T}

/-! ## The messages for a client -/

theorem forClient_append (xs ys : List (κ × Message)) :
    forClient c (xs ++ ys) = forClient c xs ++ forClient c ys :=
  List.filterMap_append

theorem forClient_cons_self (m : Message) (xs : List (κ × Message)) :
    forClient c ((c, m) :: xs) = m :: forClient c xs :=
  List.filterMap_cons_some (if_pos rfl)

theorem forClient_cons_of_ne (h : d ≠ c) (m : Message) (xs : List (κ × Message)) :
    forClient c ((d, m) :: xs) = forClient c xs :=
  List.filterMap_cons_none (if_neg h)

theorem forClient_map_self (ms : List Message) : forClient c (ms.map (c, ·)) = ms := by
  induction ms with
  | nil => rfl
  | cons m ms ih => rw [List.map_cons, forClient_cons_self, ih]

theorem forClient_map_of_ne (h : d ≠ c) (ms : List Message) :
    forClient c (ms.map (d, ·)) = [] := by
  rw [forClient, List.filterMap_eq_nil_iff]
  intro p hp
  obtain ⟨m, -, rfl⟩ := List.mem_map.mp hp
  exact if_neg h

/-! ## What one step can do -/

theorem step_own {i : Session.Act} (h : (clients T home mem mem').step s (.own c i) = some t) :
    i ≠ .task ∧ ∃ u : Session, (session (mem c) (mem' c)).step ⟨s.connection c, []⟩ i = some u ∧
      t = { connection := Function.update s.connection c u.toConnection
            tasks := Function.update s.tasks (home c)
              (T.addTasks (s.tasks (home c)) (u.tasks.map (c, ·))) } := by
  have hi : i ≠ .task := by
    rintro rfl
    exact absurd h.symm (Option.some_ne_none t)
  refine ⟨hi, ?_⟩
  cases i with
  | task => exact absurd rfl hi
  | _ =>
    obtain ⟨u, hu, rfl⟩ := Option.map_eq_some_iff.mp h
    exact ⟨u, hu, rfl⟩

theorem step_task {w : ω} (hT : T.InOrder waiting)
    (h : (clients T home mem mem').step s (.task w) = some t) :
    ∃ c m tasks, waiting (s.tasks w) = (c, m) :: waiting tasks ∧ ∃ u : Session,
      (session (mem c) (mem' c)).step ⟨s.connection c, [m]⟩ .task = some u ∧
        t = { connection := Function.update s.connection c u.toConnection
              tasks := Function.update s.tasks w tasks } := by
  obtain ⟨⟨⟨c, m⟩, tasks⟩, hrun, h⟩ := Option.bind_eq_some_iff.mp h
  obtain ⟨u, hu, rfl⟩ := Option.map_eq_some_iff.mp h
  exact ⟨c, m, tasks, hT.waiting_eq hrun, u, hu, rfl⟩

/-- The tasks of a `Cell_Server` are for its clients. -/
def Good (waiting : T.State → List (κ × Message)) (home : κ → ω) (s : Clients κ ω T) : Prop :=
  ∀ w, ∀ p ∈ waiting (s.tasks w), home p.1 = w

/-- What a step is for one client. -/
def act (waiting : T.State → List (κ × Message)) (c : κ) (s : Clients κ ω T) :
    Act κ ω → Option Session.Act
  | .own d i => if d = c then some i else none
  | .task w => if (waiting (s.tasks w)).head?.map Prod.fst = some c then some .task else none

variable (home mem mem') in
theorem good_init (hT : T.InOrder waiting) :
    Good waiting home (clients T home mem mem').init := by
  intro w p hp
  have hnil : waiting ((clients T home mem mem').init.tasks w) = [] := hT.new
  exact absurd (hnil ▸ hp) List.not_mem_nil

theorem Good.step {i : Act κ ω} (hT : T.InOrder waiting) (h : Good waiting home s)
    (hstep : (clients T home mem mem').step s i = some t) : Good waiting home t := by
  cases i with
  | own c i =>
    obtain ⟨-, u, -, rfl⟩ := step_own hstep
    intro w p hp
    by_cases hw : w = home c
    · subst hw
      simp only [Function.update_self, hT.addTasks, List.mem_append, List.mem_map] at hp
      rcases hp with hp | ⟨m, -, rfl⟩
      · exact h _ p hp
      · rfl
    · simp only [Function.update_of_ne hw] at hp
      exact h w p hp
  | task w' =>
    obtain ⟨c, m, tasks, htasks, u, -, rfl⟩ := step_task hT hstep
    intro w p hp
    by_cases hw : w = w'
    · subst hw
      simp only [Function.update_self] at hp
      exact h w p (htasks ▸ List.mem_cons_of_mem _ hp)
    · simp only [Function.update_of_ne hw] at hp
      exact h w p hp

/-- Another client's step. -/
theorem view_own_of_ne {i : Session.Act} (hT : T.InOrder waiting)
    (h : (clients T home mem mem').step s (.own d i) = some t) (hne : d ≠ c) :
    view waiting home c t = view waiting home c s := by
  obtain ⟨-, u, -, rfl⟩ := step_own h
  simp only [view, Function.update_of_ne (Ne.symm hne)]
  congr 1
  by_cases hw : home c = home d
  · rw [hw, Function.update_self, hT.addTasks, forClient_append, forClient_map_of_ne hne,
      List.append_nil]
  · rw [Function.update_of_ne hw]

/-- The client's own step. -/
theorem view_own {i : Session.Act} (hT : T.InOrder waiting)
    (h : (clients T home mem mem').step s (.own c i) = some t) :
    (session (mem c) (mem' c)).step (view waiting home c s) i =
      some (view waiting home c t) := by
  obtain ⟨hi, u, hu, rfl⟩ := step_own h
  rw [view, Session.step_tasks _ _ _ _ hi, hu, Option.map_some]
  simp only [view, Function.update_self, hT.addTasks, forClient_append, forClient_map_self]

/-- A task for another client. -/
theorem view_task_of_ne {w : ω} (hT : T.InOrder waiting)
    (h : (clients T home mem mem').step s (.task w) = some t)
    (hne : (waiting (s.tasks w)).head?.map Prod.fst ≠ some c) :
    view waiting home c t = view waiting home c s := by
  obtain ⟨d, m, tasks, htasks, u, -, rfl⟩ := step_task hT h
  have hd : d ≠ c := fun heq => hne (by rw [htasks, List.head?_cons, Option.map_some, heq])
  simp only [view, Function.update_of_ne (Ne.symm hd)]
  congr 1
  by_cases hw : home c = w
  · rw [hw, Function.update_self, htasks, forClient_cons_of_ne hd]
  · rw [Function.update_of_ne hw]

/-- A task for the client. -/
theorem view_task {w : ω} (hT : T.InOrder waiting) (hgood : Good waiting home s)
    (h : (clients T home mem mem').step s (.task w) = some t)
    (hhead : (waiting (s.tasks w)).head?.map Prod.fst = some c) :
    (session (mem c) (mem' c)).step (view waiting home c s) .task =
      some (view waiting home c t) := by
  obtain ⟨d, m, tasks, htasks, u, hu, rfl⟩ := step_task hT h
  obtain rfl : d = c := by
    rw [htasks, List.head?_cons, Option.map_some] at hhead
    exact Option.some.inj hhead
  obtain rfl : home d = w := hgood w (d, m) (htasks ▸ List.mem_cons_self)
  rw [view, htasks, forClient_cons_self, Session.step_task_cons, hu, Option.map_some]
  simp only [view, Function.update_self]

/-- **Seen from one client, the server and all its clients are a session.** -/
def projection (hT : T.InOrder waiting) (home : κ → ω) (mem mem' : κ → Vector UInt8 msgBufSize)
    (c : κ) : Machine.Projection (clients T home mem mem') (session (mem c) (mem' c)) where
  Good := Good waiting home
  view := view waiting home c
  act := act waiting c
  good_init := good_init home mem mem' hT
  good_step := Good.step hT
  view_init := by
    show Session.mk _ (forClient c (waiting T.new)) = _
    rw [hT.new]
    rfl
  stay := by
    intro s t i _ hstep hact
    cases i with
    | own d i => exact view_own_of_ne hT hstep fun hd => by simp [act, hd] at hact
    | task w => exact view_task_of_ne hT hstep fun hhead => by simp [act, hhead] at hact
  step := by
    intro s t i k hgood hstep hact
    cases i with
    | own d i =>
      obtain ⟨rfl, ⟨⟩⟩ := Option.ite_none_right_eq_some.mp hact
      exact view_own hT hstep
    | task w =>
      obtain ⟨hhead, ⟨⟩⟩ := Option.ite_none_right_eq_some.mp hact
      exact view_task hT hgood hstep hhead

/-! ## The results -/

/-- A task must not run when its message would cross the end of the client's `_szSendBuf`. -/
def Fits (waiting : T.State → List (κ × Message)) (s : Clients κ ω T) : Act κ ω → Prop
  | .own _ _ => True
  | .task w => ∀ p ∈ (waiting (s.tasks w)).head?,
    (s.connection p.1).socket.lastSendPos + p.2.size ≤ ClientSocket.sendBufSize

/-- Everything that can happen but a new request and the end of a connection. -/
def Act.Internal : Act κ ω → Prop
  | .own _ i => i.Internal
  | .task _ => True

theorem fits_view {i : Act κ ω} {k : Session.Act} (hT : T.InOrder waiting)
    (hgood : Good waiting home s) (hfits : Fits waiting s i)
    (hstep : (clients T home mem mem').step s i = some t) (hact : act waiting c s i = some k) :
    (view waiting home c s).Fits k := by
  cases i with
  | own d i =>
    obtain ⟨rfl, ⟨⟩⟩ := Option.ite_none_right_eq_some.mp hact
    have hi := (step_own hstep).1
    cases k with
    | task => exact absurd rfl hi
    | _ => trivial
  | task w =>
    obtain ⟨hhead, ⟨⟩⟩ := Option.ite_none_right_eq_some.mp hact
    obtain ⟨d, m, tasks, htasks, -⟩ := step_task hT hstep
    obtain rfl : d = c := by
      rw [htasks, List.head?_cons, Option.map_some] at hhead
      exact Option.some.inj hhead
    obtain rfl : home d = w := hgood w (d, m) (htasks ▸ List.mem_cons_self)
    intro k hk
    rw [view, htasks, forClient_cons_self, List.head?_cons] at hk
    obtain rfl := Option.some.inj hk
    exact hfits (d, m) (by rw [htasks, List.head?_cons]; rfl)

theorem reachWithin_view (hT : T.InOrder waiting)
    (h : (clients T home mem mem').ReachWithin (Fits waiting) s) (c : κ) :
    (session (mem c) (mem' c)).ReachWithin Session.Fits (view waiting home c s) :=
  ((projection hT home mem mem' c).reachWithin
    (fun _ _ _ _ hgood hfits hstep hact => fits_view hT hgood hfits hstep hact) h).2

end Clients
end EasyTcpServer
