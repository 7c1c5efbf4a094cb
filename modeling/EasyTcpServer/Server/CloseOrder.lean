import EasyTcpServer.Server.CellServer
import EasyTcpServer.Task.TaskThread

/-!
# The order in which a server stops its threads

`Cell_Server::Close` closes the task server first and its own thread second.  In between, that
thread still reads messages, and their handlers call `addSendTask`.

The machine puts both threads together, with one thread that calls `Cell_Server::Start` and
`Cell_Server::Close`.  A task that is appended when the worker of the task server is in front
of its last `clear()`, or behind it, is not executed.

* `sendTasks_kept`: when no task is appended there, no task is lost, and nothing is left of them
  when `Close` has returned.
* `sendTasks_lost`: the two ways to lose a task.
-/

namespace EasyTcpServer

open CellThread (Worker QuietInv CurrentStep)
open CellTaskServer (TaskThread AtClear PastRun Complete)

namespace CloseOrder

/-- Where the thread is that calls `Start` and `Close`. -/
inductive Call where
  /-- Outside. -/
  | none
  /-- In `Start`, behind `_taskServer.Start(_id)`. -/
  | starting
  /-- In `Close`, in `_taskServer.Close()`. -/
  | closingTask
  /-- In `Close`, behind it. -/
  | taskClosed
  /-- In `Close`, in `_thread.Close()`. -/
  | closingThread
  deriving DecidableEq, Repr

structure State where
  /-- The thread of `_taskServer`. -/
  task : TaskThread
  /-- `_thread`. -/
  thread : CellThread.State CellServer CellServer.Loc CellServer.ClearLoc
  call : Call
  /-- `Close` has returned, and there was no `Start` since. -/
  closed : Bool

inductive Act where
  /-- A step of the thread of the task server. -/
  | task (a : CellThread.Act CellTaskServer.Env)
  /-- A step of the thread of the server, or of another thread that adds a client. -/
  | thread (a : CellThread.Act CellServer.Env)
  /-- Worker `j` of the server calls `addSendTask`. -/
  | addSendTask (j : ℕ)
  deriving DecidableEq, Repr

/-- Worker `j` of the server is in `onNetMsg`. -/
def InNetMsg (t : CellThread.State CellServer CellServer.Loc CellServer.ClearLoc) (j : ℕ) : Prop :=
  match t.workers[j]? with
  | some (.onRun (.handle c _ _ _)) => t.data.log.getLast? = some (.msg c)
  | _ => False

instance (t : CellThread.State CellServer CellServer.Loc CellServer.ClearLoc) (j : ℕ) :
    Decidable (InNetMsg t j) := by
  unfold InNetMsg
  split <;> infer_instance

/-- When `Start` and `Close` take the steps of the two calls they are made of. -/
def Call.May {ι : Type} (start close wait : Call) (call : Call) : CellThread.Act ι → Prop
  | .start => call = start
  | .close => call = close
  | .wait | .resume | .closeReturn => call = wait
  | _ => True

instance {ι : Type} (start close wait call : Call) (a : CellThread.Act ι) :
    Decidable (Call.May start close wait call a) := by
  unfold Call.May
  split <;> infer_instance

/-- Where such a step leads; a `Close` of a thread has returned or not. -/
def Call.next {ι : Type} (started closing closed : Call) (returned : Bool) (call : Call) :
    CellThread.Act ι → Call
  | .start => started
  | .close | .closeReturn => if returned then closed else closing
  | _ => call

def step (s : State) : Act → Option State
  | .task (.external _) => none
  | .task a =>
    if Call.May .none .none .closingTask s.call a then
      (CellTaskServer.taskThread.step s.task a).map fun t =>
        { s with
          task := t
          call := Call.next .starting .closingTask .taskClosed t.closeReturned s.call a
          closed := s.closed && decide (a ≠ .start) }
    else none
  | .thread a =>
    if Call.May .starting .taskClosed .closingThread s.call a then
      (CellThread.step CellServer.callbacks s.thread a).map fun t =>
        { s with
          thread := t
          call := Call.next .none .closingThread .none t.closeReturned s.call a
          closed := s.closed || t.closeReturned }
    else none
  | .addSendTask j =>
    if InNetMsg s.thread j then
      (CellTaskServer.taskThread.step s.task (.external .addTask)).map fun t =>
        { s with task := t }
    else none

end CloseOrder

/-- A new server with its task server. -/
def closeOrder : Machine CloseOrder.State CloseOrder.Act where
  init := ⟨CellTaskServer.taskThread.init, (cellThread CellServer.callbacks .new).init, .none,
    false⟩
  step := CloseOrder.step

namespace CloseOrder

variable {s t : State}

/-! ## The law -/

/-- No send task is lost. -/
structure Law (s : State) : Prop where
  /-- Each task was executed, or is in one of the lists. -/
  kept : ∀ k < s.task.data.added, k ∈ s.task.data.executed ∨ k ∈ s.task.data.queue.tasks ∨
    k ∈ s.task.data.queue.taskBuf
  /-- Nothing is left when `Close` has returned. -/
  drained : s.closed = true → s.task.data.queue.tasks = [] ∧ s.task.data.queue.taskBuf = []

/-- The worker of the task server has not come to its last `clear()`. -/
def InTime (s : State) : Act → Prop
  | .addSendTask _ => ¬ AtClear s.task.current ∧ ¬ PastRun s.task.current
  | _ => True

/-! ## The steps of the task server -/

/-- A step is a step of the task server, or leaves it as it is. -/
theorem step_cases {i : Act} (h : step s i = some t) :
    (∃ a, CellTaskServer.taskThread.step s.task a = some t.task ∧
      t.thread = s.thread ∧
      (i = .task a ∧ Call.May .none .none .closingTask s.call a ∧
          t.call = Call.next .starting .closingTask .taskClosed t.task.closeReturned s.call a ∧
          t.closed = (s.closed && decide (a ≠ .start)) ∨
        a = .external .addTask ∧ (∃ j, i = .addSendTask j) ∧ t.call = s.call ∧
          t.closed = s.closed)) ∨
    ∃ a, i = .thread a ∧ CellThread.step CellServer.callbacks s.thread a = some t.thread ∧
      t.task = s.task ∧ Call.May .starting .taskClosed .closingThread s.call a ∧
      t.call = Call.next .none .closingThread .none t.thread.closeReturned s.call a ∧
      t.closed = (s.closed || t.thread.closeReturned) := by
  cases i with
  | task a =>
    have hne : step s (.task a) = if Call.May .none .none .closingTask s.call a then
        (CellTaskServer.taskThread.step s.task a).map fun t =>
          { s with
            task := t
            call := Call.next .starting .closingTask .taskClosed t.closeReturned s.call a
            closed := s.closed && decide (a ≠ .start) } else none := by
      cases a with
      | external e => cases h
      | _ => rfl
    rw [hne, Option.ite_none_right_eq_some, Option.map_eq_some_iff] at h
    obtain ⟨hmay, t', ht, rfl⟩ := h
    exact .inl ⟨a, ht, rfl, .inl ⟨rfl, hmay, rfl, rfl⟩⟩
  | thread a =>
    rw [step, Option.ite_none_right_eq_some, Option.map_eq_some_iff] at h
    obtain ⟨hmay, t', ht, rfl⟩ := h
    exact .inr ⟨a, rfl, ht, rfl, hmay, rfl, rfl⟩
  | addSendTask j =>
    rw [step, Option.ite_none_right_eq_some, Option.map_eq_some_iff] at h
    obtain ⟨-, t', ht, rfl⟩ := h
    exact .inl ⟨_, ht, rfl, .inr ⟨rfl, ⟨j, rfl⟩, rfl, rfl⟩⟩

/-- A `Close` of a thread returns in one of two steps. -/
theorem closeReturned_step {σ ω δ ι : Type} {C : Callbacks σ ω δ ι}
    {s t : CellThread.State σ ω δ} {a : CellThread.Act ι} (h : CellThread.step C s a = some t)
    (hret : t.closeReturned = true) : a = .close ∨ a = .closeReturn := by
  cases hworker : a.worker? with
  | some j =>
    obtain ⟨w, w', hmove⟩ := CellThread.workerMove hworker h
    exact absurd (hmove.closeReturned.symm.trans hret) (by simp)
  | none =>
    cases a with
    | close => exact .inl rfl
    | closeReturn => exact .inr rfl
    | start =>
      obtain ⟨-, rfl⟩ := CellThread.step_start.mp h
      unfold CellThread.start at hret
      split_ifs at hret
    | wait =>
      obtain ⟨-, rfl⟩ := CellThread.step_wait.mp h
      cases hret
    | resume =>
      obtain ⟨-, rfl⟩ := CellThread.step_resume.mp h
      cases hret
    | external i =>
      obtain ⟨d, -, rfl⟩ := CellThread.step_external.mp h
      cases hret
    | _ => cases hworker

/-- Behind `onRun` nothing is left in `_taskBuf`, when nothing is appended there. -/
theorem taskBuf_step {s t : TaskThread} {a : CellThread.Act CellTaskServer.Env}
    (hs : PastRun s.current → s.data.queue.taskBuf = [])
    (ha : a = .external .addTask → ¬ PastRun s.current)
    (h : CurrentStep CellTaskServer.callbacks s t a) (hpast : PastRun t.current) :
    t.data.queue.taskBuf = [] := by
  cases h with
  | control hworkers hdata =>
    rw [hdata]
    exact hs (CellThread.current_congr hworkers ▸ hpast)
  | close hworkers hdata =>
    rw [hdata]
    exact hs (CellThread.current_congr hworkers ▸ hpast)
  | @external i hworkers hext =>
    cases i with
    | tau => cases hext
    | addTask => exact absurd (CellThread.current_congr hworkers ▸ hpast) (ha rfl)
  | spawn _ ht =>
    rw [ht] at hpast
    exact hpast.elim
  | move _ _ _ _ hcases =>
    rcases hcases with ⟨-, ht, -⟩ | ⟨i, l, n, -, hrun, ht⟩ | ⟨i, l, o, hcur, hdestroy, -⟩ |
      ⟨hcur, -, hdata⟩
    · rw [ht] at hpast
      exact hpast.elim
    · cases n with
      | ret => exact CellTaskServer.onRun_ret hrun
      | _ =>
        rw [ht] at hpast
        exact hpast.elim
    · cases i with
      | addTask => cases hdestroy
      | tau =>
        have hdata := (Prod.mk.inj (Option.some.inj hdestroy)).1.symm
        rw [hdata]
        exact hs (by rw [hcur]; trivial)
    · rw [hdata]
      exact hs (by rw [hcur]; trivial)

/-- A worker that is done stays so, unless there is a `Start`. -/
theorem done_step {s t : TaskThread} {a : CellThread.Act CellTaskServer.Env}
    (hs : s.current = .done) (h : CurrentStep CellTaskServer.callbacks s t a) (ha : a ≠ .start) :
    t.current = .done := by
  cases h with
  | control hworkers => exact (CellThread.current_congr hworkers).trans hs
  | close hworkers => exact (CellThread.current_congr hworkers).trans hs
  | external hworkers => exact (CellThread.current_congr hworkers).trans hs
  | spawn => exact absurd rfl ha
  | move _ _ _ _ hcases =>
    rcases hcases with ⟨hcur, -⟩ | ⟨i, l, n, hcur, -⟩ | ⟨i, l, o, hcur, -⟩ | ⟨hcur, -⟩ <;>
      rw [hs] at hcur <;> cases hcur

/-! ## The invariant -/

/-- `Close` is behind `_taskServer.Close()`, or has returned. -/
def TaskClosed (s : State) : Prop :=
  s.closed = true ∨ s.call = .taskClosed ∨ s.call = .closingThread

structure Inv (s : State) : Prop where
  quiet : QuietInv s.task
  complete : Complete s.task
  taskBuf : PastRun s.task.current → s.task.data.queue.taskBuf = []
  done : TaskClosed s → s.task.current = .done

theorem Inv.law (h : Inv s) : Law s := by
  refine ⟨fun k hk => ?_, fun hclosed => ?_⟩
  · have hmem : k ∈ CellTaskServer.line s.task.data s.task.current := by
      rw [h.complete.line_eq]
      exact List.mem_range.mpr hk
    rcases List.mem_append.mp hmem with hexecuted | hwaits
    · exact .inl hexecuted
    · rcases List.mem_append.mp hwaits with htasks | hbuf
      · exact .inr (.inl (List.mem_of_mem_drop htasks))
      · exact .inr (.inr (List.mem_of_mem_drop hbuf))
  · have hdone := h.done (.inl hclosed)
    have hpast : PastRun s.task.current := by
      rw [hdone]
      trivial
    exact ⟨h.complete.shape.tasks (CellTaskServer.not_hasTasks_of_pastRun hpast).1,
      h.taskBuf hpast⟩

/-- In the invariant, a step in time leaves the task server undisturbed. -/
theorem Inv.undisturbed (h : Inv s) {u : TaskThread} {a : CellThread.Act CellTaskServer.Env}
    (ha : a = .external .addTask → ¬ AtClear s.task.current)
    (hstep : CellTaskServer.taskThread.step s.task a = some u) :
    CellTaskServer.Undisturbed s.task a := by
  cases a with
  | external i =>
    cases i with
    | addTask => exact ha rfl
    | tau => trivial
  | close =>
    intro hstop _
    have hidle := ((CellThread.step_close (C := CellTaskServer.callbacks)).mp hstep).1
    refine h.taskBuf ?_
    rw [(h.quiet.stopped hidle hstop).1.current]
    trivial
  | _ => trivial

theorem inv_step {i : Act} (hs : Inv s) (hok : InTime s i) (h : step s i = some t) : Inv t := by
  rcases step_cases h with ⟨a, ha, -, hcall⟩ | ⟨a, -, ha, htask, hmay, hcall, hclosed⟩
  · have hcur := CellThread.currentStep hs.quiet ha
    have hin : a = .external .addTask → ¬ AtClear s.task.current ∧ ¬ PastRun s.task.current := by
      rintro rfl
      rcases hcall with ⟨rfl, -⟩ | ⟨-, ⟨j, rfl⟩, -⟩
      · cases h
      · exact hok
    refine ⟨CellThread.quietInv_step CellTaskServer.callbacks_exitFree hs.quiet ha,
      hs.complete.step (hs.undisturbed (fun hadd => (hin hadd).1) ha) hcur,
      taskBuf_step hs.taskBuf (fun hadd => (hin hadd).2) hcur, fun ht => ?_⟩
    by_cases hret : t.task.closeReturned = true
    · exact (CellTaskServer.returnsDone_step hs.quiet hcur hret).current
    · -- the call has not come behind `_taskServer.Close()` in this step
      have hbefore : TaskClosed s ∧ a ≠ .start := by
        rcases hcall with ⟨-, -, hcall, hclosed⟩ | ⟨rfl, -, hcall, hclosed⟩
        · unfold TaskClosed at ht ⊢
          rw [hcall, hclosed] at ht
          cases a <;> simp_all [Call.next]
        · refine ⟨?_, nofun⟩
          unfold TaskClosed at ht ⊢
          rwa [hcall, hclosed] at ht
      exact done_step (hs.done hbefore.1) hcur hbefore.2
  · refine ⟨htask ▸ hs.quiet, htask ▸ hs.complete, htask ▸ hs.taskBuf, fun ht => ?_⟩
    rw [htask]
    refine hs.done ?_
    unfold TaskClosed at ht ⊢
    rw [hcall, hclosed] at ht
    by_cases hret : t.thread.closeReturned = true
    · rcases closeReturned_step ha hret with rfl | rfl
      · exact .inr (.inl hmay)
      · exact .inr (.inr hmay)
    · cases a <;> simp_all [Call.next, Call.May]

theorem inv_of_reachWithin (h : closeOrder.ReachWithin InTime s) : Inv s := by
  refine h.invariant ?_ fun _ _ _ hs hok hstep => inv_step hs hok hstep
  obtain ⟨hquiet, hcomplete, -⟩ :=
    CellTaskServer.complete_of_reachWithin (s := CellTaskServer.taskThread.init) .init
  exact ⟨hquiet, hcomplete, fun _ => rfl, fun _ => rfl⟩

/-! ## Runs -/

/-- **No send task is lost** in a run in which every call of `addSendTask` comes before the
worker of the task server gets to its last `clear()`. -/
theorem sendTasks_kept (s : State) (h : closeOrder.ReachWithin InTime s) : Law s :=
  (inv_of_reachWithin h).law

instance (s : State) (i : Act) : Decidable (InTime s i) := by
  unfold InTime PastRun
  cases i with
  | addSendTask j =>
    dsimp only
    cases s.task.current <;> infer_instance
  | _ => infer_instance

/-- Both threads are started, and the server reads a message of its client. -/
def readsMessage : List Act :=
  [.task .start, .thread .start, .task (.create 0), .thread (.create 0),
    .thread (.external (.addClient ⟨16, 1, 3⟩ false)), .thread (.run 0 .tau),
    .thread (.run 0 .tau), .thread (.run 0 .tau), .thread (.run 0 .tau),
    .thread (.run 0 (.select (some ([3], [], [])))), .thread (.run 0 (.recv 10)),
    .thread (.run 0 .msg)]

/-- `Close` is called, and the worker of the task server gets to the end of its last loop,
which runs the tasks that wait. -/
def closesTask (waiting : ℕ) : List Act :=
  ([.task .close, .task .wait, .task (.run 0 .tau)] : List Act) ++
    List.replicate (2 * waiting + 1) (Act.task (.run 0 .tau))

/-- `_taskServer.Close()` returns. -/
def taskCloses : List Act :=
  [.task (.run 0 .tau), .task (.destroy 0 .tau), .task (.wakeup 0), .task .resume,
    .task .closeReturn]

/-- The server goes on to the end, and `Close` returns. -/
def closesThread : List Act :=
  ([.thread .close, .thread .wait] : List Act) ++
    List.replicate 4 (Act.thread (.run 0 .tau)) ++
    ([.thread (.run 0 (.heart false)), .thread (.run 0 .tau), .thread (.run 0 .tau),
      .thread (.destroy 0 .tau), .thread (.destroy 0 .tau), .thread (.wakeup 0), .thread .resume,
      .thread .closeReturn] : List Act)

/-- The reply to a message is sent before `Close` returns. -/
theorem sendTasks_kept_reply : ∃ s, closeOrder.ReachWithin InTime s ∧ s.closed = true ∧
    s.task.data.added = 1 ∧ s.task.data.executed = [0] ∧ Law s := by
  obtain ⟨s, hs, hp⟩ := Machine.exists_reachWithin_of_run (M := closeOrder) InTime
    (List.flatten [readsMessage, [.addSendTask 0], closesTask 1, taskCloses, closesThread])
    (fun s => decide (s.closed = true ∧ s.task.data.added = 1 ∧ s.task.data.executed = [0]))
    (by decide +kernel)
  obtain ⟨hclosed, hadded, hexecuted⟩ := of_decide_eq_true hp
  exact ⟨s, hs, hclosed, hadded, hexecuted, sendTasks_kept s hs⟩

/-- **Two ways to lose a reply.**  It is appended in front of the last `clear()` of the task
server and removed by it, while `Close` waits; or it is appended behind, and is in `_taskBuf`
when `Close` has returned. -/
theorem sendTasks_lost :
    (∃ s, closeOrder.Reachable s ∧ s.task.data.added = 1 ∧ s.task.data.executed = [] ∧
      s.task.data.queue = .new ∧ ¬ Law s) ∧
    ∃ s, closeOrder.Reachable s ∧ s.closed = true ∧ s.task.data.executed = [] ∧
      s.task.data.queue.taskBuf = [0] ∧ ¬ Law s := by
  constructor
  · obtain ⟨s, hs, hp⟩ := Machine.exists_reachable_of_run (M := closeOrder)
      (List.flatten [readsMessage, closesTask 0, [.addSendTask 0], taskCloses])
      (fun s => decide (s.task.data.added = 1 ∧ s.task.data.executed = [] ∧
        s.task.data.queue = .new)) (by decide +kernel)
    obtain ⟨hadded, hexecuted, hqueue⟩ := of_decide_eq_true hp
    refine ⟨s, hs, hadded, hexecuted, hqueue, fun hlaw => ?_⟩
    have hkept := hlaw.kept 0 (by rw [hadded]; decide)
    rw [hexecuted, hqueue] at hkept
    simp [CellTaskServer.new] at hkept
  · obtain ⟨s, hs, hp⟩ := Machine.exists_reachable_of_run (M := closeOrder)
      (List.flatten [readsMessage, closesTask 0, taskCloses, [.addSendTask 0], closesThread])
      (fun s => decide (s.closed = true ∧ s.task.data.executed = [] ∧
        s.task.data.queue.taskBuf = [0])) (by decide +kernel)
    obtain ⟨hclosed, hexecuted, hbuf⟩ := of_decide_eq_true hp
    refine ⟨s, hs, hclosed, hexecuted, hbuf, fun hlaw => ?_⟩
    rw [(hlaw.drained hclosed).2] at hbuf
    cases hbuf

end CloseOrder
end EasyTcpServer
