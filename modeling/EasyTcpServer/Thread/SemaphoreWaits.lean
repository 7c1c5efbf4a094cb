import Mathlib.Data.Int.Order.Basic
import Mathlib.Data.List.Count
import EasyTcpServer.Lib.Machine
import EasyTcpServer.Thread.CellSemaphore

/-!
# Waiting on a `Cell_Semaphore`

Any number of threads call `wait` and `wakeup` of one semaphore.  A `wait` that brings `_wait`
below zero goes to the condition variable: it tests `_wakeup > 0` under the mutex and sleeps, in
one step with giving the mutex up, if it is not.  A sleeping thread is woken by `notify_one` or
for no reason at all, takes the mutex again when it can, and tests again.

So a permission in `_wakeup` is not handed to a thread.  Whoever tests first takes it, and that
may be a thread that has only just called `wait`; the one that was notified goes back to sleep.

The mutex is held between two steps only by a thread that is about to test.  So it is free
exactly when no thread is there.  `wakeup` and the first part of `wait` are one step each, enabled
when the mutex is free.

* `semaphore_law`: what the counters say about the calls, in every run.
* `exists_return`: a permission can be taken at once.

The counters are integers here, and the source's as long as these stay inside `int`.
-/

namespace EasyTcpServer
namespace SemaphoreWaits

/-- Where a thread is. -/
inductive Loc where
  | outside
  /-- In `_cond.wait`, with the mutex, in front of the test. -/
  | testing
  | asleep
  /-- In `_cond.wait`, notified or woken for no reason, in front of the mutex. -/
  | woken
  deriving DecidableEq, Repr

namespace Loc

/-- Inside `_cond.wait`. -/
def blocked : Loc → Bool
  | .outside => false
  | _ => true

/-- Inside `_cond.wait`, and going to test. -/
def awake : Loc → Bool
  | .testing | .woken => true
  | _ => false

end Loc

structure State where
  sem : CellSemaphore
  threads : List Loc
  /-- How many calls of `wait` have got to `--_wait`. -/
  waits : ℕ
  /-- How many calls of `wakeup` were made. -/
  wakeups : ℕ
  /-- How many calls of `wait` have returned. -/
  returns : ℕ
  deriving DecidableEq, Repr

inductive Act where
  /-- Thread `j` calls `wait` and gets the mutex. -/
  | wait (j : ℕ)
  /-- Thread `j` tests the predicate. -/
  | test (j : ℕ)
  /-- Thread `j` is woken for no reason. -/
  | spurious (j : ℕ)
  /-- Thread `j`, woken, gets the mutex. -/
  | relock (j : ℕ)
  /-- Thread `j` calls `wakeup`, and thread `k` is the one that is notified if there is one. -/
  | wakeup (j k : ℕ)
  deriving DecidableEq, Repr

variable (s : State)

/-- The mutex is free. -/
def State.Free : Prop := .testing ∉ s.threads

instance : Decidable s.Free := by
  unfold State.Free
  infer_instance

/-- The first part of `wait`. -/
def enter (j : ℕ) : State :=
  if s.sem.blocks then
    { s with
      sem := s.sem.enterWait
      threads := s.threads.set j .testing
      waits := s.waits + 1 }
  else { s with sem := s.sem.enterWait, waits := s.waits + 1, returns := s.returns + 1 }

/-- The test, and what is behind it. -/
def test (j : ℕ) : State :=
  if s.sem.mayResume then
    { s with
      sem := s.sem.resume
      threads := s.threads.set j .outside
      returns := s.returns + 1 }
  else { s with threads := s.threads.set j .asleep }

/-- `notify_one()`: one of the sleeping threads is woken, if there are any. -/
def notifyOne (threads : List Loc) (k : ℕ) : Option (List Loc) :=
  if .asleep ∈ threads then
    if threads[k]? = some .asleep then some (threads.set k .woken) else none
  else some threads

/-- `wakeup()`. -/
def wakeup (k : ℕ) : Option State :=
  if s.sem.wait + 1 ≤ 0 then
    (notifyOne s.threads k).map fun threads =>
      { s with sem := s.sem.signal, threads := threads, wakeups := s.wakeups + 1 }
  else some { s with sem := s.sem.signal, wakeups := s.wakeups + 1 }

def step : Act → Option State
  | .wait j => if s.Free ∧ s.threads[j]? = some .outside then some (enter s j) else none
  | .test j => if s.threads[j]? = some .testing then some (test s j) else none
  | .spurious j =>
    if s.threads[j]? = some .asleep then some { s with threads := s.threads.set j .woken }
    else none
  | .relock j =>
    if s.Free ∧ s.threads[j]? = some .woken then
      some { s with threads := s.threads.set j .testing }
    else none
  | .wakeup j k => if s.Free ∧ s.threads[j]? = some .outside then wakeup s k else none

end SemaphoreWaits

open SemaphoreWaits in
/-- A new semaphore and `n` threads. -/
def semaphoreWaits (n : ℕ) : Machine State Act where
  init := ⟨.new, .replicate n .outside, 0, 0, 0⟩
  step := step

namespace SemaphoreWaits

variable {s t : State} {j k : ℕ}

/-! ## Counting threads -/

/-- Putting a thread somewhere else changes the counts of the two places. -/
theorem countP_set_add {p : Loc → Bool} {threads : List Loc} {l m : Loc}
    (h : threads[j]? = some l) :
    (threads.set j m).countP p + (if p l then 1 else 0) =
      threads.countP p + if p m then 1 else 0 := by
  obtain ⟨hj, rfl⟩ := List.getElem?_eq_some_iff.mp h
  have hle : (if p threads[j] then 1 else 0) ≤ threads.countP p := by
    split_ifs with hp
    · exact List.countP_pos_iff.mpr ⟨_, List.getElem_mem hj, hp⟩
    · exact Nat.zero_le _
  rw [List.countP_set hj]
  omega

/-- How many calls of `wait` are inside `_cond.wait`. -/
def blockedCount (threads : List Loc) : ℕ := threads.countP Loc.blocked

/-- How many of them are going to test. -/
def awakeCount (threads : List Loc) : ℕ := threads.countP Loc.awake

variable {threads : List Loc}

/-- When nobody sleeps, all are going to test. -/
theorem awakeCount_eq (h : .asleep ∉ threads) : awakeCount threads = blockedCount threads := by
  refine List.countP_congr fun l hl => ?_
  cases l with
  | asleep => exact absurd hl h
  | _ => decide

/-- A thread comes to `_cond.wait`. -/
theorem count_enter (h : threads[j]? = some .outside) :
    blockedCount (threads.set j .testing) = blockedCount threads + 1 ∧
      awakeCount (threads.set j .testing) = awakeCount threads + 1 :=
  ⟨countP_set_add (p := Loc.blocked) h, countP_set_add (p := Loc.awake) h⟩

/-- A thread leaves it. -/
theorem count_leave (h : threads[j]? = some .testing) :
    blockedCount (threads.set j .outside) + 1 = blockedCount threads ∧
      awakeCount (threads.set j .outside) + 1 = awakeCount threads :=
  ⟨countP_set_add (p := Loc.blocked) h, countP_set_add (p := Loc.awake) h⟩

/-- A thread gets on inside it. -/
theorem count_blocked {l m : Loc} (h : threads[j]? = some l) (hl : l.blocked = true)
    (hm : m.blocked = true) : blockedCount (threads.set j m) = blockedCount threads := by
  have hcount := countP_set_add (p := Loc.blocked) (m := m) h
  rw [if_pos hl, if_pos hm] at hcount
  exact Nat.add_right_cancel hcount

/-! ## What one step can do -/

theorem step_wait (h : step s (.wait j) = some t) :
    s.threads[j]? = some .outside ∧ t = enter s j := by
  have h := Machine.guarded_eq_some.mp h
  exact ⟨h.1.2, h.2⟩

theorem step_test (h : step s (.test j) = some t) :
    s.threads[j]? = some .testing ∧ t = test s j :=
  Machine.guarded_eq_some.mp h

theorem step_spurious (h : step s (.spurious j) = some t) :
    s.threads[j]? = some .asleep ∧ t = { s with threads := s.threads.set j .woken } :=
  Machine.guarded_eq_some.mp h

theorem step_relock (h : step s (.relock j) = some t) :
    s.threads[j]? = some .woken ∧ t = { s with threads := s.threads.set j .testing } := by
  have h := Machine.guarded_eq_some.mp h
  exact ⟨h.1.2, h.2⟩

theorem notifyOne_cases {threads' : List Loc} (h : notifyOne threads k = some threads') :
    threads[k]? = some .asleep ∧ threads' = threads.set k .woken ∨
      .asleep ∉ threads ∧ threads' = threads := by
  unfold notifyOne at h
  split_ifs at h with hmem hk
  · exact .inl ⟨hk, (Option.some.inj h).symm⟩
  · exact .inr ⟨hmem, (Option.some.inj h).symm⟩

/-- A `wakeup` when a call of `wait` has not been answered, and one when all have. -/
theorem step_wakeup (h : step s (.wakeup j k) = some t) :
    s.sem.wait < 0 ∧ (∃ threads, (s.threads[k]? = some .asleep ∧
        threads = s.threads.set k .woken ∨ .asleep ∉ s.threads ∧ threads = s.threads) ∧
        t = { s with sem := s.sem.signal, threads := threads, wakeups := s.wakeups + 1 }) ∨
      0 ≤ s.sem.wait ∧ t = { s with sem := s.sem.signal, wakeups := s.wakeups + 1 } := by
  simp only [step, Option.ite_none_right_eq_some] at h
  obtain ⟨-, h⟩ := h
  unfold wakeup at h
  split_ifs at h with hwait
  · obtain ⟨threads, hnotify, rfl⟩ := Option.map_eq_some_iff.mp h
    exact .inl ⟨by omega, threads, notifyOne_cases hnotify, rfl⟩
  · exact .inr ⟨by omega, (Option.some.inj h).symm⟩

/-! ## The invariant -/

/-- The balance of calls and counters.  A permission never waits for a sleeping thread alone:
there are at least as many threads going to test as there are permissions. -/
structure Inv (s : State) : Prop where
  wait : s.sem.wait = s.wakeups - s.waits
  blocked : (blockedCount s.threads : ℤ) = s.sem.wakeup + max 0 ((s.waits : ℤ) - s.wakeups)
  returns : s.returns + blockedCount s.threads = s.waits
  wakeup_nonneg : 0 ≤ s.sem.wakeup
  wakeup_le : s.sem.wakeup ≤ awakeCount s.threads

theorem Inv.enter (h : Inv s) (hl : s.threads[j]? = some .outside) : Inv (enter s j) := by
  obtain ⟨hwait, hblocked, hreturns, hnonneg, hle⟩ := h
  unfold SemaphoreWaits.enter
  split_ifs with hblocks
  · have hneg := s.sem.blocks_iff.mp hblocks
    obtain ⟨hcount, hawake⟩ := count_enter hl
    constructor <;> simp only [hcount, hawake, CellSemaphore.enterWait_wait,
      CellSemaphore.enterWait_wakeup] <;> omega
  · -- a permission was left in `_wait`
    have hpos : 0 < s.sem.wait := not_le.mp (mt s.sem.blocks_iff.mpr hblocks)
    constructor <;> simp only [CellSemaphore.enterWait_wait, CellSemaphore.enterWait_wakeup] <;>
      omega

/-- A permission is taken by whoever tests first; a thread that finds none goes to sleep. -/
theorem Inv.test (h : Inv s) (hl : s.threads[j]? = some .testing) : Inv (test s j) := by
  obtain ⟨hwait, hblocked, hreturns, hnonneg, hle⟩ := h
  unfold SemaphoreWaits.test
  split_ifs with hmay
  · have hpos := s.sem.mayResume_iff.mp hmay
    obtain ⟨hcount, hawake⟩ := count_leave hl
    constructor <;> simp only [CellSemaphore.resume_wait, CellSemaphore.resume_wakeup] <;> omega
  · have hzero : s.sem.wakeup ≤ 0 := not_lt.mp (mt s.sem.mayResume_iff.mpr hmay)
    have hcount := count_blocked (m := .asleep) hl rfl rfl
    constructor <;> simp only [hcount] <;> omega

/-- A thread inside `_cond.wait` is woken, or gets the mutex. -/
theorem Inv.wake (h : Inv s) {l l' : Loc} (hl : s.threads[j]? = some l) (hin : l.blocked = true)
    (hin' : l'.blocked = true) (hawake : l'.awake = true) :
    Inv { s with threads := s.threads.set j l' } := by
  obtain ⟨hwait, hblocked, hreturns, hnonneg, hle⟩ := h
  have hcount := count_blocked hl hin hin'
  have hmono : awakeCount s.threads ≤ awakeCount (s.threads.set j l') := by
    have hadd := countP_set_add (p := Loc.awake) (m := l') hl
    rw [if_pos hawake] at hadd
    unfold awakeCount
    split_ifs at hadd <;> omega
  constructor <;> simp only [hcount] <;> omega

/-- **A `wakeup` that answers a call**: it hands a permission to one more thread that is going to
test, or nobody sleeps and all that are left are going to test. -/
theorem Inv.signal (h : Inv s) (hneg : s.sem.wait < 0)
    (hnotify : s.threads[k]? = some .asleep ∧ threads = s.threads.set k .woken ∨
      .asleep ∉ s.threads ∧ threads = s.threads) :
    Inv { s with sem := s.sem.signal, threads := threads, wakeups := s.wakeups + 1 } := by
  obtain ⟨hwait, hblocked, hreturns, hnonneg, hle⟩ := h
  have hwakeup := CellSemaphore.signal_wakeup_of_neg hneg
  obtain ⟨hk, rfl⟩ | ⟨hnone, rfl⟩ := hnotify
  · have hcount := count_blocked (m := .woken) hk rfl rfl
    have hawake : awakeCount (s.threads.set k .woken) = awakeCount s.threads + 1 :=
      countP_set_add (p := Loc.awake) hk
    constructor <;> simp only [hcount, hawake, CellSemaphore.signal_wait, hwakeup] <;> omega
  · have hall := awakeCount_eq hnone
    constructor <;> simp only [CellSemaphore.signal_wait, hwakeup] <;> omega

/-- A `wakeup` that finds every call answered leaves a permission in `_wait`. -/
theorem Inv.keep (h : Inv s) (hpos : 0 ≤ s.sem.wait) :
    Inv { s with sem := s.sem.signal, wakeups := s.wakeups + 1 } := by
  obtain ⟨hwait, hblocked, hreturns, hnonneg, hle⟩ := h
  have hwakeup := CellSemaphore.signal_wakeup_of_nonneg hpos
  constructor <;> simp only [CellSemaphore.signal_wait, hwakeup] <;> omega

theorem Inv.step (h : Inv s) {i : Act} (hstep : step s i = some t) : Inv t := by
  cases i with
  | wait j =>
    obtain ⟨hl, rfl⟩ := step_wait hstep
    exact h.enter hl
  | test j =>
    obtain ⟨hl, rfl⟩ := step_test hstep
    exact h.test hl
  | spurious j =>
    obtain ⟨hl, rfl⟩ := step_spurious hstep
    exact h.wake hl rfl rfl rfl
  | relock j =>
    obtain ⟨hl, rfl⟩ := step_relock hstep
    exact h.wake hl rfl rfl rfl
  | wakeup j k =>
    obtain ⟨hneg, threads, hnotify, rfl⟩ | ⟨hnonneg, rfl⟩ := step_wakeup hstep
    · exact h.signal hneg hnotify
    · exact h.keep hnonneg

theorem inv_init (n : ℕ) : Inv (semaphoreWaits n).init := by
  have hcount (p : Loc → Bool) (hp : p .outside = false) :
      (List.replicate n Loc.outside).countP p = 0 := by
    rw [List.countP_eq_zero]
    intro l hl
    rw [(List.mem_replicate.mp hl).2, hp]
    exact Bool.false_ne_true
  have hblocked : blockedCount (semaphoreWaits n).init.threads = 0 := hcount _ rfl
  have hawake : awakeCount (semaphoreWaits n).init.threads = 0 := hcount _ rfl
  refine ⟨rfl, ?_, ?_, le_rfl, ?_⟩
  · rw [hblocked]
    rfl
  · rw [hblocked]
    rfl
  · rw [hawake]
    rfl

/-! ## What the counters say -/

/-- **The law of a semaphore.** -/
structure Law (s : State) : Prop where
  wait : s.sem.wait = s.wakeups - s.waits
  blocked : (blockedCount s.threads : ℤ) - s.sem.wakeup = max 0 ((s.waits : ℤ) - s.wakeups)
  returns : (s.returns : ℤ) = min (s.waits : ℤ) s.wakeups - s.sem.wakeup
  returns_le : s.returns ≤ s.wakeups
  wakeup_nonneg : 0 ≤ s.sem.wakeup
  /-- When there is a permission, a thread in `_cond.wait` is about to test, or was woken, and
  what it tests is true. -/
  not_lost : 0 < s.sem.wakeup → s.sem.mayResume = true ∧
    ∃ j : ℕ, s.threads[j]? = some .testing ∨ s.threads[j]? = some .woken

theorem Inv.law (h : Inv s) : Law s := by
  obtain ⟨hwait, hblocked, hreturns, hnonneg, hle⟩ := h
  refine ⟨hwait, by omega, by omega, by omega, hnonneg, fun hpos => ?_⟩
  refine ⟨s.sem.mayResume_iff.mpr hpos, ?_⟩
  obtain ⟨l, hl, hawake⟩ := List.countP_pos_iff.mp (show 0 < awakeCount s.threads by omega)
  obtain ⟨j, hj⟩ := List.mem_iff_getElem?.mp hl
  refine ⟨j, ?_⟩
  cases l with
  | testing => exact .inl hj
  | woken => exact .inr hj
  | outside => cases hawake
  | asleep => cases hawake

theorem inv_of_reachable (n : ℕ) (h : (semaphoreWaits n).Reachable s) : Inv s :=
  h.invariant (inv_init n) fun _ _ _ hs hstep => hs.step hstep

/-- **The law of a semaphore holds in every run**, for any number of threads. -/
theorem semaphore_law (n : ℕ) (h : (semaphoreWaits n).Reachable s) : Law s :=
  (inv_of_reachable n h).law

/-- Two threads wait, and a third wakes one of them.  A call that comes late takes the permission
before the one that was notified. -/
theorem semaphore_law_late : ∃ s, (semaphoreWaits 4).Reachable s ∧
    s.threads = [Loc.woken, .asleep, .outside, .outside] ∧ s.waits = 3 ∧ s.wakeups = 1 ∧
      s.returns = 1 ∧ Law s := by
  obtain ⟨s, hs, hp⟩ := Machine.exists_reachable_of_run (M := semaphoreWaits 4)
    [.wait 0, .test 0, .wait 1, .test 1, .wakeup 2 0, .wait 3, .test 3]
    (fun s => decide (s.threads = [Loc.woken, .asleep, .outside, .outside] ∧ s.waits = 3 ∧
      s.wakeups = 1 ∧ s.returns = 1)) (by decide)
  obtain ⟨hthreads, hwaits, hwakeups, hreturns⟩ := of_decide_eq_true hp
  exact ⟨s, hs, hthreads, hwaits, hwakeups, hreturns, semaphore_law 4 hs⟩

/-- **A permission can be taken at once**: at most two steps, of one thread, and its call of
`wait` has returned. -/
theorem exists_return (n : ℕ) (h : (semaphoreWaits n).Reachable s) (hpos : 0 < s.sem.wakeup) :
    ∃ is : List Act, is.length ≤ 2 ∧
      ((semaphoreWaits n).run s is).map State.returns = some (s.returns + 1) := by
  have htest {u : State} {j : ℕ} (hj : u.threads[j]? = some .testing) (hu : 0 < u.sem.wakeup) :
      ((semaphoreWaits n).run u [.test j]).map State.returns = some (u.returns + 1) := by
    have hstep : (semaphoreWaits n).step u (.test j) = some (test u j) := if_pos hj
    rw [Machine.run_cons, hstep, Option.bind_some, Machine.run_nil, Option.map_some, test,
      if_pos (u.sem.mayResume_iff.mpr hu)]
  by_cases hfree : s.Free
  · obtain ⟨-, j, hj | hj⟩ := (inv_of_reachable n h).law.not_lost hpos
    · exact absurd (List.mem_iff_getElem?.mpr ⟨j, hj⟩) hfree
    · have hrelock : (semaphoreWaits n).step s (.relock j) =
          some { s with threads := s.threads.set j .testing } := if_pos ⟨hfree, hj⟩
      refine ⟨[.relock j, .test j], Nat.le_refl 2, ?_⟩
      rw [Machine.run_cons, hrelock, Option.bind_some]
      exact htest (List.getElem?_set_self (List.getElem?_eq_some_iff.mp hj).1) hpos
  · -- the thread that has the mutex is about to test
    obtain ⟨j, hj⟩ := List.mem_iff_getElem?.mp (not_not.mp hfree)
    exact ⟨[.test j], Nat.le_succ 1, htest hj hpos⟩

end SemaphoreWaits
end EasyTcpServer
