import Mathlib.Data.Int.Order.Basic

/-!
# `Cell_Semaphore`

A counter `_wait` that `wait` takes one from and `wakeup` adds one to, and a count
`_wakeup` of the permissions to go on that were handed to threads already waiting.  Both
methods hold the semaphore's own mutex, so each of them is one step, and a `wait` that
blocks is two: the part before the condition variable, and the part after it.

A `wakeup` that finds nobody waiting leaves its one in `_wait`, and the next `wait`, however
much later, takes it and does not block.
-/

namespace EasyTcpServer

structure CellSemaphore where
  wait : ℤ
  wakeup : ℤ
  deriving DecidableEq, Repr

namespace CellSemaphore

/-- The constructor. -/
def new : CellSemaphore := ⟨0, 0⟩

variable (s : CellSemaphore)

/-- The part of `wait` up to the condition variable. -/
def enterWait : CellSemaphore := { s with wait := s.wait - 1 }

/-- Whether that part goes on to block on the condition variable. -/
def blocks : Bool := s.wait - 1 < 0

/-- The predicate the condition variable waits for. -/
def mayResume : Bool := 0 < s.wakeup

/-- The part of `wait` behind the condition variable. -/
def resume : CellSemaphore := { s with wakeup := s.wakeup - 1 }

/-- `wakeup()`. -/
def signal : CellSemaphore :=
  if s.wait + 1 ≤ 0 then { wait := s.wait + 1, wakeup := s.wakeup + 1 }
  else { s with wait := s.wait + 1 }

@[simp] theorem enterWait_wait : s.enterWait.wait = s.wait - 1 := rfl

@[simp] theorem enterWait_wakeup : s.enterWait.wakeup = s.wakeup := rfl

@[simp] theorem resume_wait : s.resume.wait = s.wait := rfl

@[simp] theorem resume_wakeup : s.resume.wakeup = s.wakeup - 1 := rfl

@[simp] theorem signal_wait : s.signal.wait = s.wait + 1 := by
  unfold signal
  split <;> rfl

theorem blocks_iff : s.blocks = true ↔ s.wait ≤ 0 := by
  rw [blocks, decide_eq_true_eq]
  omega

theorem mayResume_iff : s.mayResume = true ↔ 0 < s.wakeup := by
  rw [mayResume, decide_eq_true_eq]

variable {s}

/-- A signal wakes a thread when one waits. -/
theorem signal_wakeup_of_neg (h : s.wait < 0) : s.signal.wakeup = s.wakeup + 1 := by
  rw [signal, if_pos (by omega)]

/-- Otherwise it is left in the counter. -/
theorem signal_wakeup_of_nonneg (h : 0 ≤ s.wait) : s.signal.wakeup = s.wakeup := by
  rw [signal, if_neg (by omega)]

end CellSemaphore
end EasyTcpServer
