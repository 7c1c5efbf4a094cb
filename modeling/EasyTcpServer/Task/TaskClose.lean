import EasyTcpServer.Task.TaskThread
import EasyTcpServer.Thread.CloseReturns

/-!
# That the `Close` of a task server returns

With `_isRun` down, the worker finishes the list it is at and runs what is in `_taskBuf`.  The
loop over `_taskBuf` sees what is appended meanwhile, so that each `addTask` may put the end off.

* `taskClose_returns`: a `Close` that is inside takes no more than a bounded number of steps, its
  own and those of the worker, and three more for every `addTask` meanwhile.  If there is none,
  it returns when all tasks that waited are executed, in order.
-/

namespace EasyTcpServer
namespace CellTaskServer

open CellThread (Worker Stops CurrentStep)

/-! ## The worker -/

/-- How much the worker has left to do. -/
def rank (d : Numbered) : Worker Loc Unit → ℕ
  | .onCreate => 2 * d.queue.taskBuf.length + 6
  | .onRun .loop => 2 * d.queue.taskBuf.length + 5
  | .onRun .test => 2 * d.queue.tasks.length + 2 * d.queue.taskBuf.length + 9
  | .onRun .move => 2 * d.queue.tasks.length + 2 * d.queue.taskBuf.length + 8
  | .onRun .check => 2 * d.queue.tasks.length + 2 * d.queue.taskBuf.length + 7
  | .onRun (.run k) => 2 * (d.queue.tasks.length - k) + 2 * d.queue.taskBuf.length + 6
  | .onRun (.running k) =>
    2 * (d.queue.tasks.length - (k + 1)) + 2 * d.queue.taskBuf.length + 7
  | .onRun (.drain k) => 2 * (d.queue.taskBuf.length - k) + 4
  | .onRun (.draining k) => 2 * (d.queue.taskBuf.length - (k + 1)) + 5
  | .onRun (.clear _) => 3
  | .onDestory _ => 2
  | .wakeup => 1
  | .exiting _ | .done => 0

theorem rank_le (d : Numbered) (w : Worker Loc Unit) :
    rank d w ≤ 2 * (d.queue.tasks.length + d.queue.taskBuf.length) + 9 := by
  cases w with
  | onRun l =>
    cases l <;>
      · simp only [rank]
        omega
  | _ =>
    simp only [rank]
    omega

variable {d d' : Numbered} {w : Worker Loc Unit} {l : Loc} {i : Env} {n : Next Loc}

theorem rank_onRun (h : callbacks.onRun false d l i = some (d', n)) :
    rank d' (.ofRun () n) < rank d (.onRun l) := by
  obtain ⟨q', started, hrun, rfl⟩ := callbacks_onRun h
  cases hrun with
  | run hsome =>
    have hlt := (List.getElem?_eq_some_iff.mp hsome).1
    simp only [Worker.ofRun, rank]
    omega
  | drain hsome =>
    have hlt := (List.getElem?_eq_some_iff.mp hsome).1
    simp only [Worker.ofRun, rank]
    omega
  | move =>
    simp only [Worker.ofRun, rank, List.length_append, List.length_nil]
    omega
  | _ =>
    simp only [Worker.ofRun, rank]
    omega

theorem rank_addTask (d : Numbered) (w : Worker Loc Unit) :
    rank { d with queue := d.queue.addTask d.added, added := d.added + 1 } w ≤ rank d w + 2 := by
  cases w with
  | onRun l =>
    cases l <;>
      · simp only [rank, addTask, List.length_append, List.length_singleton]
        omega
  | _ =>
    simp only [rank, addTask, List.length_append, List.length_singleton]
    omega

/-- With `_isRun` down the worker comes to its end, whatever is in the lists. -/
def stops : Stops callbacks where
  Fits _ _ := True
  rank := rank
  paid _ := 1
  gain _ := 2
  fits_spawn _ := trivial
  fits_create _ := trivial
  fits_run _ _ := trivial
  fits_destroy _ _ := trivial
  fits_wakeup _ := trivial
  fits_external _ _ := trivial
  rank_create := Nat.lt_succ_self _
  rank_run _ h := rank_onRun h
  rank_destroy {d d' l i o} _ h := by
    cases i with
    | addTask => cases h
    | tau =>
      obtain ⟨rfl, rfl⟩ := Prod.mk.inj (Option.some.inj h)
      exact le_rfl
  rank_wakeup := Nat.zero_lt_one
  rank_external {d d' w i} h := by
    cases i with
    | tau => cases h
    | addTask =>
      obtain rfl := Option.some.inj h
      exact rank_addTask d w
  exists_run _ _ := ⟨.tau, _, _, rfl, Nat.zero_lt_one⟩
  exists_destroy _ _ := ⟨.tau, _, _, rfl, Nat.zero_lt_one⟩

/-! ## The thread -/

variable {s t : TaskThread} {a : CellThread.Act Env}

theorem good_of_reachable (h : taskThread.Reachable s) : stops.Good s := by
  refine h.invariant (I := stops.Good) ?_ fun _ _ _ hs hstep =>
    Stops.good_step (S := stops) callbacks_exitFree hs hstep
  exact ⟨CellThread.quietInv_init (C := callbacks) _, CellThread.awaited_init (C := callbacks) _,
    trivial⟩

/-- While a `Close` is inside, a step is its own or one of the worker, or an `addTask`. -/
theorem potential_cases (hs : stops.Good s) (hbusy : s.close ≠ .idle)
    (h : CellThread.step callbacks s a = some t) :
    stops.potential t + 1 ≤ stops.potential s + if a = .external .addTask then 3 else 0 := by
  have hle := Stops.potential_step hs hbusy h
  cases a with
  | start => exact absurd (CellThread.step_start.mp h).1 hbusy
  | close => exact absurd (CellThread.step_close.mp h).1 hbusy
  | exit j =>
    obtain ⟨l, hw, -⟩ := CellThread.step_exit.mp h
    exact absurd rfl (hs.quiet.no_exit _ (List.mem_of_getElem? hw) l)
  | external i =>
    cases i with
    | tau =>
      obtain ⟨d, hd, -⟩ := CellThread.step_external.mp h
      cases hd
    | addTask =>
      rw [if_pos rfl]
      exact Nat.succ_le_succ hle
  | _ =>
    rw [if_neg (by simp)]
    exact hle

/-- The steps that the `Close` is made of leave its mark, the flag and the number of workers. -/
theorem own_step (ha : 0 < stops.paidBy a) (h : CellThread.step callbacks s a = some t) :
    t.isRun = s.isRun ∧ t.atClose = s.atClose ∧ t.workers.length = s.workers.length := by
  cases a with
  | wait =>
    obtain ⟨-, rfl⟩ := CellThread.step_wait.mp h
    exact ⟨rfl, rfl, rfl⟩
  | resume =>
    obtain ⟨-, rfl⟩ := CellThread.step_resume.mp h
    exact ⟨rfl, rfl, rfl⟩
  | closeReturn =>
    obtain ⟨-, rfl⟩ := CellThread.step_closeReturn.mp h
    exact ⟨rfl, rfl, rfl⟩
  | create j =>
    obtain ⟨-, rfl⟩ := CellThread.step_create.mp h
    exact ⟨rfl, rfl, List.length_set⟩
  | run j i =>
    obtain ⟨l, d, n, -, -, rfl⟩ := CellThread.step_run.mp h
    exact ⟨rfl, rfl, List.length_set⟩
  | destroy j i =>
    obtain ⟨l, d, o, -, -, rfl⟩ := CellThread.step_destroy.mp h
    exact ⟨rfl, rfl, List.length_set⟩
  | wakeup j =>
    obtain ⟨-, rfl⟩ := CellThread.step_wakeup.mp h
    exact ⟨rfl, rfl, List.length_set⟩
  | _ => exact absurd ha (Nat.lt_irrefl 0)

theorem undisturbed_of_own (ha : 0 < stops.paidBy a) : Undisturbed s a := by
  cases a with
  | close | external => exact absurd ha (Nat.lt_irrefl 0)
  | _ => trivial

/-! ## The run to the end -/

/-- A `Close` that is inside, with what it has found. -/
structure Closing (added : ℕ) (s : TaskThread) : Prop where
  good : stops.Good s
  isRun : s.isRun = false
  workers : s.workers ≠ []
  atClose : s.atClose.added = added

variable {m : ℕ}

theorem Closing.step (hs : Closing m s) (ha : 0 < stops.paidBy a)
    (h : CellThread.step callbacks s a = some t) : Closing m t := by
  obtain ⟨hrun, hat, hlen⟩ := own_step ha h
  refine ⟨Stops.good_step callbacks_exitFree hs.good h, hrun.trans hs.isRun, ?_, hat ▸ hs.atClose⟩
  rw [← List.length_pos_iff, hlen, List.length_pos_iff]
  exact hs.workers

/-- Left to itself, the `Close` returns. -/
theorem Closing.exists_return (hs : Closing m s) :
    ∃ is t, taskThread.StaysIn (fun _ a => 0 < stops.paidBy a) s is ∧
      taskThread.run s is = some t ∧ Closing m t ∧ t.close = .idle := by
  refine Machine.exists_run_of_rank (I := Closing m) stops.potential (fun s hs hbusy => ?_) hs
  obtain ⟨a, t, hstep, ha, hadded⟩ := Stops.exists_step hs.good hbusy
  have hle := Stops.potential_step hs.good hbusy hstep
  exact ⟨a, t, ha, hstep, hs.step ha hstep, by omega⟩

/-- **The `Close` of a task server returns.**  While it is inside, no more steps are taken, by
anybody, than two for each task in the lists and twelve, and three for each `addTask`.  Without an
`addTask` it comes back by itself; and in a run in which no task was lost, the tasks it has found
are executed then. -/
theorem taskClose_returns (h : taskThread.Reachable s) (hbusy : s.close ≠ .idle) :
    (∀ is t, taskThread.StaysIn (fun s _ => s.close ≠ .idle) s is → taskThread.run s is = some t →
      is.length ≤ 2 * (s.data.queue.tasks.length + s.data.queue.taskBuf.length) + 12 +
        3 * is.count (.external .addTask)) ∧
    ∃ is t, .external .addTask ∉ is ∧ taskThread.run s is = some t ∧ t.close = .idle ∧
      (taskThread.ReachWithin Undisturbed s → ∀ k < s.atClose.added, k ∈ t.data.executed) := by
  have hgood := good_of_reachable h
  constructor
  · intro is t hstay hrun
    have hle := Machine.add_total_le (M := taskThread) (I := stops.Good)
      (fun s a t hs _ hstep => Stops.good_step callbacks_exitFree hs hstep)
      (fun s a t hs hbusy hstep => potential_cases hs hbusy hstep) hgood hstay hrun
    rw [Machine.total_label (fun _ => 1) hrun, Machine.sum_map_one,
      Machine.total_label (fun a => if a = .external .addTask then 3 else 0) hrun,
      Machine.sum_map_count] at hle
    have hclose := s.close.rank_le
    have hrank := rank_le s.data s.current
    have hpot : stops.potential s = s.close.rank + rank s.data s.current := rfl
    omega
  · have hclosing : Closing s.atClose.added s :=
      ⟨hgood, hgood.awaited.isRun hbusy, hgood.awaited.started (.inr hbusy), rfl⟩
    obtain ⟨is, t, hstay, hrun, hend, hidle⟩ := hclosing.exists_return
    refine ⟨is, t, fun hadd => ?_, hrun, hidle, fun hreach k hk => ?_⟩
    · obtain ⟨u, hu⟩ := hstay.of_mem hrun hadd
      exact absurd hu (Nat.lt_irrefl 0)
    · have hund : taskThread.StaysIn Undisturbed s is :=
        hstay.mono fun _ _ hu => undisturbed_of_own hu
      obtain ⟨hquiet, hcomplete, -⟩ := complete_of_reachWithin (hreach.of_staysIn hund hrun)
      have hdone := (hquiet.stopped hidle hend.isRun).1.current
      exact hcomplete.executed (by rw [hdone]; trivial) hend.workers k (hend.atClose ▸ hk)

/-- A `Close` that finds two tasks in `_taskBuf` comes back with both executed. -/
theorem taskClose_returns_two :
    ∃ s, taskThread.ReachWithin Undisturbed s ∧ s.close = .blocked ∧
      s.data.queue.taskBuf = [0, 1] ∧
      ∃ is t, taskThread.run s is = some t ∧ t.close = .idle ∧ ∀ k < 2, k ∈ t.data.executed := by
  obtain ⟨s, hs, hp⟩ := Machine.exists_reachWithin_of_run (M := taskThread) Undisturbed
    [.start, .create 0, .external .addTask, .external .addTask, .close, .wait]
    (fun s => decide (s.close = .blocked ∧ s.data.queue.taskBuf = [0, 1] ∧ s.atClose.added = 2))
    (by decide)
  obtain ⟨hblocked, hbuf, hat⟩ := of_decide_eq_true hp
  obtain ⟨-, is, t, -, hrun, hidle, hexecuted⟩ :=
    taskClose_returns hs.reachable (by rw [hblocked]; decide)
  exact ⟨s, hs, hblocked, hbuf, is, t, hrun, hidle, hat ▸ hexecuted hs⟩

end CellTaskServer
end EasyTcpServer
