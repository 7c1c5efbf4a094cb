import EasyTcpServer.Thread.CellThread

/-!
# `CellTaskServer`

Any thread appends tasks to `_taskBuf`, under a mutex.  The worker moves all of `_taskBuf`
to `_tasks`, under the same mutex, and runs `_tasks` from front to back.  When it is told to
stop it runs what is left in `_taskBuf` and clears the list, this time without the mutex.

The steps of `onRun` are those between which another thread can get in: a test, the move, a
step of an iterator, the start and the end of a task.  The loops go over `std::list`, so an
iterator stays good while others append, and a loop that has not met the end sees what was
appended meanwhile.  The model keeps how many elements lie behind the iterator.

Tasks are of any kind: what they do is not looked at here.
-/

namespace EasyTcpServer

structure CellTaskServer (τ : Type) where
  tasks : List τ
  taskBuf : List τ
  deriving DecidableEq, Repr

namespace CellTaskServer

/-- Where the worker is in `onRun`. -/
inductive Loc where
  /-- At the head of the loop. -/
  | loop
  /-- At the test whether `_taskBuf` is empty. -/
  | test
  /-- At the locked move. -/
  | move
  /-- At the test whether there are tasks. -/
  | check
  /-- In the loop over `_tasks`, with `k` elements behind the iterator. -/
  | run (k : ℕ)
  /-- Inside the task the iterator points to. -/
  | running (k : ℕ)
  /-- In the loop over `_taskBuf`, with `k` elements behind the iterator. -/
  | drain (k : ℕ)
  /-- Inside the task the iterator points to. -/
  | draining (k : ℕ)
  /-- At the last `clear()`; the loop has met the end behind `k` elements. -/
  | clear (k : ℕ)
  deriving DecidableEq, Repr

section Step

variable {τ : Type} (q : CellTaskServer τ)

/-- The constructor. -/
def new : CellTaskServer τ := ⟨[], []⟩

/-- The body of `addTask`. -/
def addTask (task : τ) : CellTaskServer τ := { q with taskBuf := q.taskBuf ++ [task] }

/-- A step of `onRun`: the lists, the task that is started by it, and what is next. -/
def onRun (isRun : Bool) : Loc → CellTaskServer τ × Option τ × Next Loc
  | .loop => (q, none, .goto (if isRun then .test else .drain 0))
  | .test => (q, none, .goto (if q.taskBuf.isEmpty then .check else .move))
  | .move => (⟨q.tasks ++ q.taskBuf, []⟩, none, .goto .check)
  | .check => (q, none, .goto (if q.tasks.isEmpty then .loop else .run 0))
  | .run k =>
    match q.tasks[k]? with
    | some pTask => (q, some pTask, .goto (.running k))
    | none => ({ q with tasks := [] }, none, .goto .loop)
  | .running k => (q, none, .goto (.run (k + 1)))
  | .drain k =>
    match q.taskBuf[k]? with
    | some pTask => (q, some pTask, .goto (.draining k))
    | none => (q, none, .goto (.clear k))
  | .draining k => (q, none, .goto (.drain (k + 1)))
  | .clear _ => ({ q with taskBuf := [] }, none, .ret)

/-- What a step of `onRun` can do: the value of `isRun()` it needs, the lists behind it, the
task that is started, and what is next. -/
inductive OnRun : Bool → Loc → CellTaskServer τ → Option τ → Next Loc → Prop where
  | enter : OnRun true .loop q none (.goto .test)
  | leave : OnRun false .loop q none (.goto (.drain 0))
  | testEmpty {b : Bool} : q.taskBuf = [] → OnRun b .test q none (.goto .check)
  | test {b : Bool} : OnRun b .test q none (.goto .move)
  | move {b : Bool} : OnRun b .move ⟨q.tasks ++ q.taskBuf, []⟩ none (.goto .check)
  | checkEmpty {b : Bool} : q.tasks = [] → OnRun b .check q none (.goto .loop)
  | check {b : Bool} : OnRun b .check q none (.goto (.run 0))
  | run {b : Bool} {k : ℕ} {pTask : τ} : q.tasks[k]? = some pTask →
      OnRun b (.run k) q (some pTask) (.goto (.running k))
  | runEnd {b : Bool} {k : ℕ} : q.tasks.drop k = [] →
      OnRun b (.run k) { q with tasks := [] } none (.goto .loop)
  | running {b : Bool} {k : ℕ} : OnRun b (.running k) q none (.goto (.run (k + 1)))
  | drain {b : Bool} {k : ℕ} {pTask : τ} : q.taskBuf[k]? = some pTask →
      OnRun b (.drain k) q (some pTask) (.goto (.draining k))
  | drainEnd {b : Bool} {k : ℕ} : q.taskBuf.drop k = [] →
      OnRun b (.drain k) q none (.goto (.clear k))
  | draining {b : Bool} {k : ℕ} : OnRun b (.draining k) q none (.goto (.drain (k + 1)))
  | clear {b : Bool} {k : ℕ} : OnRun b (.clear k) { q with taskBuf := [] } none .ret

/-- **What a step of `onRun` can do.** -/
theorem onRun_cases (isRun : Bool) (l : Loc) :
    OnRun q isRun l (q.onRun isRun l).1 (q.onRun isRun l).2.1 (q.onRun isRun l).2.2 := by
  cases l with
  | loop =>
    cases isRun
    · exact .leave
    · exact .enter
  | test =>
    rw [onRun]
    split_ifs with hempty
    · exact .testEmpty (List.isEmpty_iff.mp hempty)
    · exact .test
  | move => exact .move
  | check =>
    rw [onRun]
    split_ifs with hempty
    · exact .checkEmpty (List.isEmpty_iff.mp hempty)
    · exact .check
  | run k =>
    rw [onRun]
    split
    · next hsome => exact .run hsome
    · next hnone => exact .runEnd (List.drop_eq_nil_of_le (List.getElem?_eq_none_iff.mp hnone))
  | running k => exact .running
  | drain k =>
    rw [onRun]
    split
    · next hsome => exact .drain hsome
    · next hnone => exact .drainEnd (List.drop_eq_nil_of_le (List.getElem?_eq_none_iff.mp hnone))
  | draining k => exact .draining
  | clear k => exact .clear

end Step

end CellTaskServer
end EasyTcpServer
