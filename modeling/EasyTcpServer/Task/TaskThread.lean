import EasyTcpServer.Task.CellTaskServer
import EasyTcpServer.Thread.QuietThread
import Mathlib.Data.List.Range

/-!
# The thread of a task server

Tasks are numbered as they are appended.  The line of tasks, those executed, those in `_tasks`
and those in `_taskBuf`, is left as it is by every step but `addTask`, with one exception.

Between the step on which the last loop meets the end of `_taskBuf` and `_taskBuf.clear()`
there is no mutex.  What is appended there is removed without having been run
(`task_lost_in_clear`).

* `tasks_in_order`: in every run the numbers of the executed tasks are increasing, and only
  one worker executes tasks; when a `Close` returns, everything appended before has been
  executed, provided nothing is appended in front of `_taskBuf.clear()`.
-/

namespace EasyTcpServer
namespace CellTaskServer

open CellThread (Worker)

/-! ## The thread -/

/-- A task server whose tasks are the numbers under which they were appended. -/
structure Numbered where
  queue : CellTaskServer ℕ
  /-- How many tasks were appended. -/
  added : ℕ
  /-- The tasks that were started, in order. -/
  executed : List ℕ
  deriving DecidableEq, Repr

/-- The labels: a step of the worker's code, or a call of `addTask`. -/
inductive Env where
  | tau
  | addTask
  deriving DecidableEq, Repr

/-- The callbacks `CellTaskServer::Start` hands to its thread: `onRun`, and a null pointer
for `onDestory`. -/
def callbacks : Callbacks Numbered Loc Unit Env where
  runStart := .loop
  onRun isRun d l
    | .tau =>
      let r := d.queue.onRun isRun l
      some ({ d with queue := r.1, executed := d.executed ++ r.2.1.toList }, r.2.2)
    | .addTask => none
  destroyStart := ()
  onDestory d _
    | .tau => some (d, none)
    | .addTask => none
  external d
    | .tau => none
    | .addTask => some { d with queue := d.queue.addTask d.added, added := d.added + 1 }

/-- The thread of a new task server. -/
def taskThread : Machine (CellThread.State Numbered Loc Unit) (CellThread.Act Env) :=
  cellThread callbacks ⟨.new, 0, []⟩

theorem callbacks_onRun {d d' : Numbered} {isRun : Bool} {l : Loc} {i : Env} {n : Next Loc}
    (h : callbacks.onRun isRun d l i = some (d', n)) :
    ∃ q' started, OnRun d.queue isRun l q' started n ∧
      d' = { d with queue := q', executed := d.executed ++ started.toList } := by
  cases i with
  | tau =>
    obtain ⟨rfl, rfl⟩ := Prod.mk.inj (Option.some.inj h)
    exact ⟨_, _, d.queue.onRun_cases isRun l, rfl⟩
  | addTask => cases h

theorem callbacks_exitFree : callbacks.ExitFree := by
  intro b d l i d' l' h
  obtain ⟨q', started, hrun, -⟩ := callbacks_onRun h
  cases hrun

/-! ## The line of tasks

The tasks that were executed, then those in `_tasks` in front of the iterator, then those in
`_taskBuf`.  Everything but an `addTask` leaves the line as it is, with one exception. -/

/-- How many elements of the two lists lie behind the iterator. -/
def Loc.passed : Loc → ℕ × ℕ
  | .run k => (k, 0)
  | .running k => (k + 1, 0)
  | .drain k => (0, k)
  | .draining k => (0, k + 1)
  | .clear k => (0, k)
  | _ => (0, 0)

/-- Whether the worker may have tasks in `_tasks`. -/
def Loc.HasTasks : Loc → Prop
  | .check | .run _ | .running _ => True
  | _ => False

/-- The places in the loop that `_isRun` controls. -/
def Loc.InLoop : Loc → Prop
  | .drain _ | .draining _ | .clear _ => False
  | _ => True

section Waiting

variable {τ : Type} {q q' : CellTaskServer τ} {started : Option τ} {b : Bool} {l l' : Loc}

/-- The tasks of any kind that lie behind the iterator, and in the list that has none. -/
def waiting (q : CellTaskServer τ) (l : Loc) : List τ :=
  q.tasks.drop l.passed.1 ++ q.taskBuf.drop l.passed.2

theorem drop_of_getElem? {tasks : List τ} {k : ℕ} {pTask : τ} (h : tasks[k]? = some pTask) :
    tasks.drop k = pTask :: tasks.drop (k + 1) := by
  obtain ⟨hlt, rfl⟩ := List.getElem?_eq_some_iff.mp h
  exact List.drop_eq_getElem_cons hlt

/-- While `_isRun` is up, the worker stays in that loop. -/
theorem Loc.InLoop.onRun {n : Next Loc} (hl : l.InLoop) (h : OnRun q true l q' started n) :
    ∃ l', n = .goto l' ∧ l'.InLoop := by
  cases h with
  | drain | drainEnd | draining | clear => exact hl.elim
  | _ => exact ⟨_, rfl, trivial⟩

/-- A step of `onRun` starts the first of them, or leaves them as they are. -/
theorem waiting_onRun (h : OnRun q b l q' started (.goto l')) (hl : l.InLoop) (hl' : l'.InLoop) :
    q.waiting l = started.toList ++ q'.waiting l' := by
  cases h with
  | run hsome => simp [waiting, Loc.passed, drop_of_getElem? hsome]
  | runEnd hnil => simp [waiting, Loc.passed, hnil]
  | leave => exact hl'.elim
  | drain | drainEnd | draining => exact hl.elim
  | _ => simp [waiting, Loc.passed]

end Waiting

/-- The same for a worker wherever it is. -/
def passed : Worker Loc Unit → ℕ × ℕ
  | .onRun l => l.passed
  | _ => (0, 0)

def HasTasks : Worker Loc Unit → Prop
  | .onRun l => l.HasTasks
  | _ => False

def line (d : Numbered) (w : Worker Loc Unit) : List ℕ :=
  d.executed ++ (d.queue.tasks.drop (passed w).1 ++ d.queue.taskBuf.drop (passed w).2)

/-- What the code keeps of the two lists. -/
structure Shape (d : Numbered) (w : Worker Loc Unit) : Prop where
  tasks : ¬ HasTasks w → d.queue.tasks = []
  taskBuf : (passed w).2 ≤ d.queue.taskBuf.length

/-- What `_taskBuf.clear()` at the end removes without running it. -/
def lost (d : Numbered) : Loc → List ℕ
  | .clear k => d.queue.taskBuf.drop k
  | _ => []

variable {d d' : Numbered} {w : Worker Loc Unit} {l : Loc} {i : Env} {n : Next Loc} {isRun : Bool}

/-- **A step of `onRun` and the line.**  It is left as it is, up to what the last `clear()`
removes. -/
theorem line_onRun (hshape : Shape d (.onRun l)) (h : callbacks.onRun isRun d l i = some (d', n)) :
    Shape d' (.ofRun () n) ∧ line d (.onRun l) = line d' (.ofRun () n) ++ lost d l := by
  obtain ⟨q', started, hrun, rfl⟩ := callbacks_onRun h
  have htasks := hshape.tasks
  have hbuf := hshape.taskBuf
  cases hrun with
  | enter | leave | testEmpty | test =>
    exact ⟨⟨fun _ => htasks not_false, Nat.zero_le _⟩,
      by simp [line, lost, Worker.ofRun, passed, Loc.passed]⟩
  | move | check | running =>
    exact ⟨⟨fun hnot => absurd trivial hnot, Nat.zero_le _⟩,
      by simp [line, lost, Worker.ofRun, passed, Loc.passed]⟩
  | checkEmpty hempty =>
    exact ⟨⟨fun _ => hempty, Nat.zero_le _⟩,
      by simp [line, lost, Worker.ofRun, passed, Loc.passed]⟩
  | run hsome =>
    exact ⟨⟨fun hnot => absurd trivial hnot, Nat.zero_le _⟩,
      by simp [line, lost, drop_of_getElem? hsome, Worker.ofRun, passed, Loc.passed]⟩
  | runEnd hnil =>
    exact ⟨⟨fun _ => rfl, Nat.zero_le _⟩,
      by simp [line, lost, hnil, Worker.ofRun, passed, Loc.passed]⟩
  | drain hsome =>
    have hempty := htasks not_false
    exact ⟨⟨fun _ => hempty, (List.getElem?_eq_some_iff.mp hsome).1⟩,
      by simp [line, lost, drop_of_getElem? hsome, hempty, Worker.ofRun, passed, Loc.passed]⟩
  | drainEnd hnil =>
    exact ⟨⟨fun _ => htasks not_false, hbuf⟩,
      by simp [line, lost, hnil, Worker.ofRun, passed, Loc.passed]⟩
  | draining =>
    exact ⟨⟨fun _ => htasks not_false, hbuf⟩,
      by simp [line, lost, Worker.ofRun, passed, Loc.passed]⟩
  | clear =>
    have hempty := htasks not_false
    exact ⟨⟨fun _ => hempty, Nat.zero_le _⟩,
      by simp [line, lost, hempty, Worker.ofRun, passed, Loc.passed]⟩

/-- When the last loop meets the end of `_taskBuf`, nothing is left behind the iterator. -/
theorem drop_of_onRun_clear {k : ℕ}
    (h : callbacks.onRun isRun d l i = some (d', .goto (.clear k))) :
    d'.queue.taskBuf.drop k = [] := by
  obtain ⟨q', started, hrun, rfl⟩ := callbacks_onRun h
  cases hrun with
  | drainEnd hnil => exact hnil

/-- `onRun` returns from the last `clear()`. -/
theorem onRun_ret (h : callbacks.onRun isRun d l i = some (d', .ret)) :
    d'.queue.taskBuf = [] := by
  obtain ⟨q', started, hrun, rfl⟩ := callbacks_onRun h
  cases hrun with
  | clear => rfl

theorem inLoop_onRun (hl : l.InLoop) (h : callbacks.onRun true d l i = some (d', n)) :
    ∃ l', n = .goto l' ∧ l'.InLoop := by
  obtain ⟨q', started, hrun, -⟩ := callbacks_onRun h
  exact hl.onRun hrun

/-! ## Steps of the thread -/

open CellThread (QuietInv CurrentStep)

/-- The states of the thread. -/
abbrev TaskThread := CellThread.State Numbered Loc Unit

variable {s t : TaskThread} {a : CellThread.Act Env}

/-- What a step may do to the line. -/
inductive LineStep (s t : TaskThread) : Prop where
  /-- It is left as it is, up to what the last `clear()` removes. -/
  | keep (r : List ℕ) : Shape t.data t.current → t.data.added = s.data.added →
      line s.data s.current = line t.data t.current ++ r →
      (r ≠ [] → ∃ k, s.current = .onRun (.clear k) ∧ r = s.data.queue.taskBuf.drop k) →
      LineStep s t
  /-- A task is appended to it. -/
  | append : Shape t.data t.current → t.data.added = s.data.added + 1 →
      line t.data t.current = line s.data s.current ++ [s.data.added] → LineStep s t

/-- A step of another thread that is no `addTask`. -/
theorem LineStep.of_same (hshape : Shape s.data s.current) (hdata : t.data = s.data)
    (hcurrent : t.current = s.current) : LineStep s t := by
  refine .keep [] ?_ (by rw [hdata]) ?_ fun hne => absurd rfl hne
  · rw [hdata, hcurrent]
    exact hshape
  · rw [hdata, hcurrent, List.append_nil]

/-- A step of the worker outside `onRun`. -/
theorem LineStep.of_pass {w w' : Worker Loc Unit} (hshape : Shape s.data s.current)
    (hs : s.current = w) (ht : t.current = w') (hdata : t.data = s.data) (hw : passed w = (0, 0))
    (hw' : passed w' = (0, 0)) (htasks : ¬ HasTasks w) : LineStep s t := by
  rw [hs] at hshape
  refine .keep [] ?_ (by rw [hdata]) ?_ fun hne => absurd rfl hne
  · rw [ht, hdata]
    exact ⟨fun _ => hshape.tasks htasks, by rw [hw']; exact Nat.zero_le _⟩
  · rw [hs, ht, hdata, List.append_nil, line, line, hw, hw']

/-- **A step and the line.** -/
theorem line_currentStep (hshape : Shape s.data s.current) (h : CurrentStep callbacks s t a) :
    LineStep s t := by
  cases h with
  | control hworkers hdata => exact .of_same hshape hdata (CellThread.current_congr hworkers)
  | close hworkers hdata => exact .of_same hshape hdata (CellThread.current_congr hworkers)
  | @external i hworkers hext =>
    cases i with
    | tau => cases hext
    | addTask =>
      obtain hdata := (Option.some.inj hext).symm
      have hcurrent := CellThread.current_congr hworkers
      have hle := hshape.taskBuf
      refine .append ?_ (by rw [hdata]) ?_
      · rw [hdata, hcurrent]
        refine ⟨fun hnot => hshape.tasks hnot, ?_⟩
        show _ ≤ (s.data.queue.taskBuf ++ [s.data.added]).length
        rw [List.length_append]
        exact Nat.le_add_right_of_le hle
      · rw [hdata, hcurrent]
        simp [line, addTask, List.drop_append_of_le_length hle]
  | spawn hs ht hdata => exact .of_pass hshape hs ht hdata rfl rfl not_false
  | move _ _ _ _ hcases =>
    rcases hcases with ⟨hs, ht, hdata⟩ | ⟨i, l, n, hs, hrun, ht⟩ | ⟨i, l, o, hs, hdestroy, ht⟩ |
      ⟨hs, ht, hdata⟩
    · exact .of_pass hshape hs ht hdata rfl rfl not_false
    · obtain ⟨hshape', hline⟩ := line_onRun (hs ▸ hshape) hrun
      obtain ⟨q', started, -, hdata⟩ := callbacks_onRun hrun
      rw [← hs, ← ht] at hline
      refine .keep _ (ht ▸ hshape') (by rw [hdata]) hline fun hne => ?_
      cases l with
      | clear k => exact ⟨k, hs, rfl⟩
      | _ => exact absurd rfl hne
    · cases i with
      | addTask => cases hdestroy
      | tau =>
        obtain ⟨hdata, ho⟩ := Prod.mk.inj (Option.some.inj hdestroy)
        rw [← ho] at ht
        exact .of_pass hshape hs ht hdata.symm rfl rfl not_false
    · exact .of_pass hshape hs ht hdata rfl rfl not_false

/-! ## Order -/

/-- What holds in every run. -/
structure Ordered (s : TaskThread) : Prop where
  shape : Shape s.data s.current
  sorted : (line s.data s.current).Pairwise (· < ·)
  lt_added : ∀ k ∈ line s.data s.current, k < s.data.added

theorem ordered_step (hs : Ordered s) (h : CurrentStep callbacks s t a) : Ordered t := by
  obtain ⟨r, hshape, hadded, hline, -⟩ | ⟨hshape, hadded, hline⟩ := line_currentStep hs.shape h
  · have hsub : (line t.data t.current).Sublist (line s.data s.current) :=
      hline ▸ List.sublist_append_left _ _
    exact ⟨hshape, hs.sorted.sublist hsub, fun k hk => hadded ▸ hs.lt_added k (hsub.subset hk)⟩
  · refine ⟨hshape, ?_, fun k hk => ?_⟩
    · rw [hline, List.pairwise_append]
      refine ⟨hs.sorted, List.pairwise_singleton _ _, fun k hk j hj => ?_⟩
      rw [List.mem_singleton.mp hj]
      exact hs.lt_added k hk
    · rw [hline] at hk
      rw [hadded]
      rcases List.mem_append.mp hk with hk | hk
      · exact Nat.lt_succ_of_lt (hs.lt_added k hk)
      · rw [List.mem_singleton.mp hk]
        exact Nat.lt_succ_self _

theorem ordered_of_reachable (h : taskThread.Reachable s) : QuietInv s ∧ Ordered s := by
  refine Machine.Reachable.invariant (I := fun s => QuietInv s ∧ Ordered s) ?_ ?_ h
  · refine ⟨CellThread.quietInv_init (C := callbacks) _, ⟨fun _ => rfl, le_rfl⟩, .nil, ?_⟩
    exact fun k hk => absurd hk (List.not_mem_nil)
  · rintro s a t ⟨hquiet, hordered⟩ hstep
    exact ⟨CellThread.quietInv_step callbacks_exitFree hquiet hstep,
      ordered_step hordered (CellThread.currentStep hquiet hstep)⟩

/-! ## Completion -/

/-- The worker is in front of the last loop. -/
def InLoop : Worker Loc Unit → Prop
  | .onCreate => True
  | .onRun l => l.InLoop
  | _ => False

/-- The worker is behind `onRun`. -/
def PastRun : Worker Loc Unit → Prop
  | .onDestory _ | .wakeup | .done => True
  | _ => False

/-- The worker is in front of the last `clear()`. -/
def AtClear : Worker Loc Unit → Prop
  | .onRun (.clear _) => True
  | _ => False

instance : DecidablePred AtClear := fun w => by
  unfold AtClear
  split <;> infer_instance

/-- No task is appended while the worker is in front of the last `clear()`, and a `Close` that
finds the worker already stopped finds nothing in `_taskBuf`. -/
def Undisturbed (s : TaskThread) : CellThread.Act Env → Prop
  | .external .addTask => ¬ AtClear s.current
  | .close => s.isRun = false → s.workers ≠ [] → s.data.queue.taskBuf = []
  | _ => True

instance (s : TaskThread) (a : CellThread.Act Env) : Decidable (Undisturbed s a) := by
  unfold Undisturbed
  split <;> infer_instance

/-- What holds throughout an undisturbed run. -/
structure Complete (s : TaskThread) : Prop where
  shape : Shape s.data s.current
  line_eq : line s.data s.current = List.range s.data.added
  cleared : ∀ k, s.current = .onRun (.clear k) → s.data.queue.taskBuf.drop k = []
  running : s.isRun = true → InLoop s.current
  atClose : s.atClose.added ≤ s.data.added
  executed : PastRun s.current → s.workers ≠ [] → ∀ k < s.atClose.added, k ∈ s.data.executed

theorem Complete.line_step (hs : Complete s) (h : CurrentStep callbacks s t a) :
    Shape t.data t.current ∧ line t.data t.current = List.range t.data.added ∧
      s.data.added ≤ t.data.added := by
  obtain ⟨r, hshape, hadded, hline, hlost⟩ | ⟨hshape, hadded, hline⟩ :=
    line_currentStep hs.shape h
  · have hr : r = [] := by
      by_contra hne
      obtain ⟨k, hk, rfl⟩ := hlost hne
      exact hne (hs.cleared k hk)
    rw [hr, List.append_nil, hs.line_eq] at hline
    exact ⟨hshape, by rw [← hline, hadded], hadded.ge⟩
  · rw [hs.line_eq] at hline
    exact ⟨hshape, by rw [hline, hadded, List.range_succ], hadded ▸ Nat.le_succ _⟩

theorem Complete.cleared_step (hs : Complete s) (hok : Undisturbed s a)
    (h : CurrentStep callbacks s t a) (k : ℕ) (hk : t.current = .onRun (.clear k)) :
    t.data.queue.taskBuf.drop k = [] := by
  cases h with
  | control hworkers hdata =>
    rw [hdata]
    exact hs.cleared k (CellThread.current_congr hworkers ▸ hk)
  | close hworkers hdata =>
    rw [hdata]
    exact hs.cleared k (CellThread.current_congr hworkers ▸ hk)
  | @external i hworkers hext =>
    cases i with
    | tau => cases hext
    | addTask =>
      rw [CellThread.current_congr hworkers] at hk
      simp [Undisturbed, AtClear, hk] at hok
  | spawn _ ht => exact absurd (ht.symm.trans hk) (by simp)
  | move _ _ _ _ hcases =>
    rcases hcases with ⟨-, ht, -⟩ | ⟨i, l, n, -, hrun, ht⟩ | ⟨i, l, o, -, -, ht⟩ | ⟨-, ht, -⟩
    · exact absurd (ht.symm.trans hk) (by simp [callbacks])
    · have hn := ht.symm.trans hk
      cases n with
      | goto l' =>
        obtain rfl : l' = .clear k := Worker.onRun.inj hn
        exact drop_of_onRun_clear hrun
      | _ => cases hn
    · have ho := ht.symm.trans hk
      cases o <;> cases ho
    · exact absurd (ht.symm.trans hk) (by simp)

theorem Complete.running_step (hs : Complete s) (h : CurrentStep callbacks s t a)
    (hrun : t.isRun = true) : InLoop t.current := by
  cases h with
  | control hworkers _ hsame =>
    rw [CellThread.current_congr hworkers]
    exact hs.running (hsame ▸ hrun)
  | close _ _ _ hstop => exact absurd (hstop.symm.trans hrun) (by simp)
  | external hworkers _ hsame =>
    rw [CellThread.current_congr hworkers]
    exact hs.running (hsame ▸ hrun)
  | spawn _ ht =>
    rw [ht]
    trivial
  | move _ hsame _ _ hcases =>
    have hs_run : s.isRun = true := hsame ▸ hrun
    have hloop := hs.running hs_run
    rcases hcases with ⟨-, ht, -⟩ | ⟨i, l, n, hcur, hstep, ht⟩ | ⟨i, l, o, hcur, -⟩ | ⟨hcur, -⟩
    · rw [ht]
      trivial
    · rw [hcur] at hloop
      rw [hs_run] at hstep
      obtain ⟨l', rfl, hl'⟩ := inLoop_onRun hloop hstep
      rw [ht]
      exact hl'
    · rw [hcur] at hloop
      exact hloop.elim
    · rw [hcur] at hloop
      exact hloop.elim

theorem not_hasTasks_of_pastRun {w : Worker Loc Unit} (h : PastRun w) :
    ¬ HasTasks w ∧ passed w = (0, 0) := by
  cases w <;> first | exact h.elim | exact ⟨not_false, rfl⟩

/-- Behind `onRun`, with an empty `_taskBuf`, the executed tasks are the line. -/
theorem executed_eq_line {w : Worker Loc Unit} (hshape : Shape d w) (hpast : PastRun w)
    (hempty : d.queue.taskBuf = []) : d.executed = line d w := by
  obtain ⟨htasks, hpassed⟩ := not_hasTasks_of_pastRun hpast
  simp [line, hpassed, hshape.tasks htasks, hempty]

theorem Complete.executed_step (hs : Complete s) (hok : Undisturbed s a)
    (h : CurrentStep callbacks s t a) (hpast : PastRun t.current) (hne : t.workers ≠ []) :
    ∀ k < t.atClose.added, k ∈ t.data.executed := by
  obtain ⟨hshape, hline, hle⟩ := hs.line_step h
  cases h with
  | control hworkers hdata _ hat =>
    rw [hdata, hat]
    exact hs.executed (CellThread.current_congr hworkers ▸ hpast) (hworkers ▸ hne)
  | close hworkers hdata _ _ hat =>
    rw [CellThread.current_congr hworkers] at hpast
    have hstop : s.isRun = false := by
      by_contra hrun
      have hloop := hs.running (by simpa using hrun)
      cases hw : s.current <;> rw [hw] at hpast hloop <;> first | exact hpast | exact hloop
    intro k hk
    rw [hdata, executed_eq_line hs.shape hpast (hok hstop (hworkers ▸ hne)), hs.line_eq]
    exact List.mem_range.mpr (hat ▸ hk)
  | @external i hworkers hext _ hat =>
    cases i with
    | tau => cases hext
    | addTask =>
      have hdata := (Option.some.inj hext).symm
      rw [hdata, hat]
      exact hs.executed (CellThread.current_congr hworkers ▸ hpast) (hworkers ▸ hne)
  | spawn _ ht =>
    rw [ht] at hpast
    exact hpast.elim
  | move hs_ne _ hat _ hcases =>
    rcases hcases with ⟨-, ht, -⟩ | ⟨i, l, n, -, hstep, ht⟩ | ⟨i, l, o, hcur, hstep, -⟩ |
      ⟨hcur, -, hdata⟩
    · rw [ht] at hpast
      exact hpast.elim
    · cases n with
      | ret =>
        intro k hk
        rw [executed_eq_line hshape hpast (onRun_ret hstep), hline]
        exact List.mem_range.mpr (hk.trans_le (hat ▸ hs.atClose.trans hle))
      | _ =>
        rw [ht] at hpast
        exact hpast.elim
    · cases i with
      | addTask => cases hstep
      | tau =>
        have hdata := (Prod.mk.inj (Option.some.inj hstep)).1.symm
        rw [hdata, hat]
        exact hs.executed (by rw [hcur]; trivial) hs_ne
    · rw [hdata, hat]
      exact hs.executed (by rw [hcur]; trivial) hs_ne

theorem Complete.step (hs : Complete s) (hok : Undisturbed s a)
    (h : CurrentStep callbacks s t a) : Complete t := by
  obtain ⟨hshape, hline, hle⟩ := hs.line_step h
  refine ⟨hshape, hline, hs.cleared_step hok h, hs.running_step h, ?_, hs.executed_step hok h⟩
  cases h with
  | control _ hdata _ hat =>
    rw [hat, hdata]
    exact hs.atClose
  | close _ hdata _ _ hat => rw [hat, hdata]
  | external _ _ _ hat =>
    rw [hat]
    exact hs.atClose.trans hle
  | spawn _ _ hdata _ hat =>
    rw [hat, hdata]
    exact hs.atClose
  | move _ _ hat =>
    rw [hat]
    exact hs.atClose.trans hle

/-- When a `Close` has just returned, the workers are done. -/
def ReturnsDone (s : TaskThread) : Prop := s.closeReturned = true → s.AllDone

theorem returnsDone_step (hs : QuietInv s) (h : CurrentStep callbacks s t a) : ReturnsDone t := by
  intro hret
  cases h with
  | control hworkers _ _ _ hclosing =>
    have hall : s.AllDone := (hs.closing (hclosing hret)).1
    exact fun w hw => hall w (hworkers ▸ hw)
  | close hworkers _ hidle _ _ hstop =>
    have hall : s.AllDone := (hs.stopped hidle (hstop hret)).1
    exact fun w hw => hall w (hworkers ▸ hw)
  | external _ _ _ _ hnot => exact absurd (hnot.symm.trans hret) (by simp)
  | spawn _ _ _ _ _ hnot => exact absurd (hnot.symm.trans hret) (by simp)
  | move _ _ _ hnot => exact absurd (hnot.symm.trans hret) (by simp)

theorem complete_of_reachWithin (h : taskThread.ReachWithin Undisturbed s) :
    QuietInv s ∧ Complete s ∧ ReturnsDone s := by
  refine h.invariant (I := fun s => QuietInv s ∧ Complete s ∧ ReturnsDone s) ?_ ?_
  · refine ⟨CellThread.quietInv_init (C := callbacks) _, ⟨⟨fun _ => rfl, le_rfl⟩, rfl, ?_, nofun,
      le_rfl, fun _ hne => absurd rfl hne⟩, nofun⟩
    exact fun k hk => by cases hk
  · rintro s a t ⟨hquiet, hcomplete, -⟩ hok hstep
    have hcur := CellThread.currentStep hquiet hstep
    exact ⟨CellThread.quietInv_step callbacks_exitFree hquiet hstep, hcomplete.step hok hcur,
      returnsDone_step hquiet hcur⟩

/-- **Order and completion of tasks.**  In every run the executed tasks are in the order in
which they were appended, none of them twice, and at most one worker is alive.  In a run in
which nothing is appended in front of the last `clear()`, and no `Close` finds a stopped
worker with tasks left, every `Close` behind a `Start` returns when the worker is done, which
has executed all tasks appended before. -/
theorem tasks_in_order (s : TaskThread) :
    (taskThread.Reachable s →
      s.data.executed.Nodup ∧ s.data.executed.Pairwise (· < ·) ∧ s.Single) ∧
    (taskThread.ReachWithin Undisturbed s → s.closeReturned = true → s.workers ≠ [] →
      s.AllDone ∧ ∀ k < s.atClose.added, k ∈ s.data.executed) := by
  refine ⟨fun hs => ?_, fun hs hret hne => ?_⟩
  · obtain ⟨hquiet, hordered⟩ := ordered_of_reachable hs
    have hsorted : s.data.executed.Pairwise (· < ·) :=
      hordered.sorted.sublist (List.sublist_append_left _ _)
    exact ⟨hsorted.imp Nat.ne_of_lt, hsorted, hquiet.single⟩
  · obtain ⟨-, hcomplete, hdone⟩ := complete_of_reachWithin hs
    have hall : s.AllDone := hdone hret
    exact ⟨hall, hcomplete.executed (by rw [hall.current]; trivial) hne⟩

/-- Two tasks are appended, and the worker is stopped before it has moved them: the `Close`
returns when both are executed. -/
theorem tasks_in_order_two_tasks :
    ∃ s, taskThread.ReachWithin Undisturbed s ∧ s.closeReturned = true ∧ s.workers ≠ [] ∧
      s.atClose.added = 2 ∧ s.AllDone ∧ ∀ k < 2, k ∈ s.data.executed := by
  obtain ⟨s, hs, hp⟩ := Machine.exists_reachWithin_of_run (M := taskThread) Undisturbed
    [.start, .create 0, .external .addTask, .external .addTask, .close, .wait, .run 0 .tau,
      .run 0 .tau, .run 0 .tau, .run 0 .tau, .run 0 .tau, .run 0 .tau, .run 0 .tau,
      .destroy 0 .tau, .wakeup 0, .resume, .closeReturn]
    (fun s => decide (s.closeReturned = true ∧ s.workers ≠ [] ∧ s.atClose.added = 2)) (by decide)
  obtain ⟨hret, hne, hat⟩ := of_decide_eq_true hp
  exact ⟨s, hs, hret, hne, hat, hat ▸ (tasks_in_order s).2 hs hret hne⟩

/-- A task is appended behind the last loop and removed by `_taskBuf.clear()`.  The next
cycle of `Start` and `Close` returns without having executed it. -/
theorem task_lost_in_clear :
    ∃ s, taskThread.Reachable s ∧ s.closeReturned = true ∧ s.workers ≠ [] ∧
      s.atClose.added = 1 ∧ s.data.executed = [] ∧ s.data.queue.taskBuf = [] := by
  obtain ⟨s, hs, hp⟩ := Machine.exists_reachable_of_run (M := taskThread)
    [.start, .create 0, .close, .wait, .run 0 .tau, .run 0 .tau, .external .addTask, .run 0 .tau,
      .destroy 0 .tau, .wakeup 0, .resume, .closeReturn,
      .start, .create 1, .close, .wait, .run 1 .tau, .run 1 .tau, .run 1 .tau,
      .destroy 1 .tau, .wakeup 1, .resume, .closeReturn]
    (fun s => decide (s.closeReturned = true ∧ s.workers ≠ [] ∧ s.atClose.added = 1 ∧
      s.data.executed = [] ∧ s.data.queue.taskBuf = [])) (by decide)
  exact ⟨s, hs, of_decide_eq_true hp⟩

end CellTaskServer
end EasyTcpServer
