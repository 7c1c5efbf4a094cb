import EasyTcpServer.Connection.Session

/-!
# The task server behind a session

`Server.h` gives its replies to a task server of `CELLTask.h`, a header that is not part of the
repository.  What it is for is a parameter here, `TaskServer`, and what is expected of it a
hypothesis, `TaskServer.InOrder`: the tasks are run in the order of `addTask`, each once, and as
long as one waits the next can be run.

A session (`Connection.Session`) keeps the tasks that wait in a list.  `taskSession` is the same
with a task server in the place of the list.  Seen through what waits in the task server it is a
session, step by step: `map_view_step`.
-/

namespace EasyTcpServer

universe u v

/-- A task server, as far as it is used. -/
structure TaskServer (α : Type u) where
  State : Type v
  new : State
  addTask : State → α → State
  /-- The task that is run next, and the task server behind that. -/
  doTask : State → Option (α × State)

namespace TaskServer

variable {α : Type u}

/-- **What is expected of a task server**: `waiting` are the tasks that were added and have not
run, and the first of them is the next. -/
structure InOrder (T : TaskServer.{u, v} α) (waiting : T.State → List α) : Prop where
  new : waiting T.new = []
  addTask : ∀ s a, waiting (T.addTask s a) = waiting s ++ [a]
  idle : ∀ s, waiting s = [] → T.doTask s = none
  next : ∀ s a as, waiting s = a :: as → ∃ t, T.doTask s = some (a, t) ∧ waiting t = as

/-- Some tasks are added, one after the other. -/
def addTasks (T : TaskServer.{u, v} α) (s : T.State) (as : List α) : T.State :=
  as.foldl T.addTask s

/-- A list that tasks are appended to and taken from. -/
def queue (α : Type u) : TaskServer.{u, u} α where
  State := List α
  new := []
  addTask s a := s ++ [a]
  doTask s := s.head?.map fun a => (a, s.tail)

theorem inOrder_queue : (queue α).InOrder id where
  new := rfl
  addTask _ _ := rfl
  idle s hs := by
    obtain rfl : s = [] := hs
    rfl
  next s a as hs := by
    obtain rfl : s = a :: as := hs
    exact ⟨as, rfl, rfl⟩

variable {T : TaskServer.{u, v} α} {waiting : T.State → List α} {s t : T.State} {a : α}

theorem InOrder.addTasks (h : T.InOrder waiting) (s : T.State) (as : List α) :
    waiting (T.addTasks s as) = waiting s ++ as := by
  induction as generalizing s with
  | nil => exact (List.append_nil _).symm
  | cons a as ih =>
    show waiting (T.addTasks (T.addTask s a) as) = _
    rw [ih, h.addTask, List.append_assoc, List.singleton_append]

/-- What is run was the first. -/
theorem InOrder.waiting_eq (h : T.InOrder waiting) (hrun : T.doTask s = some (a, t)) :
    waiting s = a :: waiting t := by
  cases hs : waiting s with
  | nil => exact absurd ((h.idle s hs).symm.trans hrun).symm (Option.some_ne_none _)
  | cons b as =>
    obtain ⟨t', hrun', ht'⟩ := h.next s b as hs
    obtain ⟨rfl, rfl⟩ : b = a ∧ t' = t := by
      rw [hrun'] at hrun
      exact ⟨congrArg Prod.fst (Option.some.inj hrun), congrArg Prod.snd (Option.some.inj hrun)⟩
    rw [ht']

end TaskServer

/-! ## Steps and what waits -/

namespace Session

variable (mem mem' : Vector UInt8 msgBufSize) (p : Connection) (xs : List Message)

/-- What waits in the queue has no part in the other steps. -/
theorem step_tasks {i : Act} (hi : i ≠ .task) :
    (session mem mem').step ⟨p, xs⟩ i =
      ((session mem mem').step ⟨p, []⟩ i).map fun t => ⟨t.toConnection, xs ++ t.tasks⟩ := by
  cases i with
  | task => exact absurd rfl hi
  | serverTurn data =>
    simp only [session, Session.serverTurn]
    split
    · split
      · split <;> simp
      · simp
    · rfl
  | clientTurn =>
    simp only [session, Session.clientTurn]
    split
    · split
      · split <;> simp
      · simp
    · rfl
  | _ =>
    simp only [session]
    split <;> simp

/-- A task has no part in what waits behind it. -/
theorem step_task_cons (m : Message) :
    (session mem mem').step ⟨p, m :: xs⟩ .task =
      ((session mem mem').step ⟨p, [m]⟩ .task).map fun t => ⟨t.toConnection, xs⟩ := by
  simp only [session, runTask, Option.map_map]
  rfl

end Session

/-! ## A session with a task server -/

/-- A connection and a task server. -/
structure TaskSession (T : TaskServer.{0, v} Message) extends Connection where
  tasks : T.State

/-- The session, with a task server for the replies. -/
def taskSession (T : TaskServer.{0, v} Message) (mem mem' : Vector UInt8 msgBufSize) :
    Machine (TaskSession T) Session.Act where
  init := ⟨(session mem mem').init.toConnection, T.new⟩
  step s
    | .task => (T.doTask s.tasks).bind fun r =>
      ((session mem mem').step ⟨s.toConnection, [r.1]⟩ .task).map fun t => ⟨t.toConnection, r.2⟩
    | i => ((session mem mem').step ⟨s.toConnection, []⟩ i).map fun t =>
      ⟨t.toConnection, T.addTasks s.tasks t.tasks⟩

namespace TaskSession

variable {T : TaskServer.{0, v} Message} {waiting : T.State → List Message}
  {mem mem' : Vector UInt8 msgBufSize} {s t : TaskSession T} {i : Session.Act}

/-- The session with the list of the tasks that wait. -/
def view (waiting : T.State → List Message) (s : TaskSession T) : Session where
  toConnection := s.toConnection
  tasks := waiting s.tasks

/-- **Seen through what waits, it is a session.** -/
theorem map_view_step (h : T.InOrder waiting) (s : TaskSession T) (i : Session.Act) :
    ((taskSession T mem mem').step s i).map (view waiting) =
      (session mem mem').step (s.view waiting) i := by
  by_cases hi : i = .task
  · subst hi
    show Option.map _ ((T.doTask s.tasks).bind _) = _
    cases hs : waiting s.tasks with
    | nil =>
      rw [h.idle _ hs, view, hs]
      rfl
    | cons m ms =>
      obtain ⟨ts, hrun, hts⟩ := h.next _ _ _ hs
      rw [hrun, Option.bind_some, Option.map_map, view, hs,
        Session.step_task_cons mem mem' s.toConnection ms m]
      refine Option.map_congr fun t _ => ?_
      rw [Function.comp_apply, view, hts]
  · have hstep : (taskSession T mem mem').step s i =
        ((session mem mem').step ⟨s.toConnection, []⟩ i).map fun t =>
          ⟨t.toConnection, T.addTasks s.tasks t.tasks⟩ := by
      cases i with
      | task => exact absurd rfl hi
      | _ => rfl
    rw [hstep, view, Session.step_tasks mem mem' s.toConnection (waiting s.tasks) hi,
      Option.map_map]
    refine Option.map_congr fun t _ => ?_
    rw [Function.comp_apply, view, h.addTasks]

theorem step_view (h : T.InOrder waiting) (hstep : (taskSession T mem mem').step s i = some t) :
    (session mem mem').step (s.view waiting) i = some (t.view waiting) := by
  rw [← map_view_step h, hstep]
  rfl

/-- Where it can go no further, neither can the session. -/
theorem step_view_eq_none (h : T.InOrder waiting)
    (hstep : (taskSession T mem mem').step s i = none) :
    (session mem mem').step (s.view waiting) i = none := by
  rw [← map_view_step h, hstep]
  rfl

/-- So it refines the session. -/
def refinement (h : T.InOrder waiting) (mem mem' : Vector UInt8 msgBufSize) :
    Machine.Refinement (taskSession T mem mem') (session mem mem') where
  Good _ := True
  abs := view waiting
  act := id
  good_init := trivial
  abs_init := by
    show Session.mk _ (waiting T.new) = _
    rw [h.new]
    rfl
  step _ hstep := ⟨trivial, step_view h hstep⟩

/-- A condition on the session is one on its steps. -/
theorem reachWithin_view (h : T.InOrder waiting) {ok : Session → Session.Act → Prop}
    (hs : (taskSession T mem mem').ReachWithin (fun s i => ok (s.view waiting) i) s) :
    (session mem mem').ReachWithin ok (s.view waiting) :=
  (refinement h mem mem').reachWithin (fun _ _ _ hok => hok) hs

/-- And every session can be had. -/
theorem exists_reachWithin (h : T.InOrder waiting) {ok : Session → Session.Act → Prop}
    {u : Session} (hu : (session mem mem').ReachWithin ok u) :
    ∃ s, (taskSession T mem mem').ReachWithin (fun s i => ok (s.view waiting) i) s ∧
      s.view waiting = u := by
  induction hu with
  | init => exact ⟨_, .init, (refinement h mem mem').abs_init⟩
  | step _ hok hstep ih =>
    obtain ⟨s, hs, rfl⟩ := ih
    rw [← map_view_step h] at hstep
    obtain ⟨t, ht, rfl⟩ := Option.map_eq_some_iff.mp hstep
    exact ⟨t, hs.step hok ht, rfl⟩

end TaskSession
end EasyTcpServer
