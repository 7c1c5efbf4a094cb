import EasyTcpServer.Lib.Projection
import EasyTcpServer.Task.TaskThread
import EasyTcpServer.Thread.SemaphoreWaits

/-!
# A thread on its semaphore

`CellThread` takes a `wait` of `Close` for two steps and a `wakeup` for one.  The semaphore has a
mutex and a condition variable: a `Close` in `_cond.wait` tests in vain, sleeps, is woken, also
for no reason, and has to get the mutex, and a worker in `wakeup` may have to wait for the mutex.

The machine below is the two side by side.  The calls of the semaphore are steps of both, and what
goes on inside `_cond.wait` is a step of the semaphore alone.  It has two places: one for the
`Close`, for no two can be inside, and one for whoever calls `wakeup`.

* `Agree`: the counters are the same, and the place of the `Close` is the one it waits at.
* `thread_on_semaphore`: each run is a run of `CellThread` and one of `SemaphoreWaits`, and what
  `CellThread` can do is done here as well: at once, behind one step inside `_cond.wait`, or, for
  a `wakeup` that finds the `Close` in front of a test that is true, behind the step that takes it
  out.
-/

namespace EasyTcpServer

open Machine (Projection)

universe u v w x

namespace ThreadWaits

structure State (σ : Type u) (ω : Type v) (δ : Type w) where
  thread : CellThread.State σ ω δ
  waits : SemaphoreWaits.State
  deriving DecidableEq

/-- What goes on inside `_cond.wait`. -/
inductive Inside where
  /-- The predicate is tested and false. -/
  | test
  | spurious
  | relock
  deriving DecidableEq, Repr

def Inside.act : Inside → SemaphoreWaits.Act
  | test => .test 0
  | spurious => .spurious 0
  | relock => .relock 0

inductive Act (ι : Type x) where
  | thread (a : CellThread.Act ι)
  | inside (i : Inside)
  deriving DecidableEq, Repr

variable {σ : Type u} {ω : Type v} {δ : Type w} {ι : Type x}

/-- What a step calls of the semaphore. -/
def calls : CellThread.Act ι → Option SemaphoreWaits.Act
  | .wait => some (.wait 0)
  | .resume => some (.test 0)
  | .wakeup _ => some (.wakeup 1 0)
  | _ => none

/-- The semaphore behind a step. -/
def waitsStep (w : SemaphoreWaits.State) : Option SemaphoreWaits.Act → Option SemaphoreWaits.State
  | none => some w
  | some i => SemaphoreWaits.step w i

def step (C : Callbacks σ ω δ ι) (s : State σ ω δ) : Act ι → Option (State σ ω δ)
  | .thread a =>
    (CellThread.step C s.thread a).bind fun t =>
      (waitsStep s.waits (calls a)).map fun w => ⟨t, w⟩
  | .inside i =>
    if i = .test ∧ s.waits.sem.mayResume = true then none
    else (SemaphoreWaits.step s.waits i.act).map fun w => ⟨s.thread, w⟩

end ThreadWaits

open ThreadWaits in
/-- A new `Cell_Thread` on its semaphore. -/
def threadWaits {σ : Type u} {ω : Type v} {δ : Type w} {ι : Type x} (C : Callbacks σ ω δ ι)
    (d : σ) : Machine (State σ ω δ) (Act ι) where
  init := ⟨(cellThread C d).init, (semaphoreWaits 2).init⟩
  step := step C

namespace ThreadWaits

variable {σ : Type u} {ω : Type v} {δ : Type w} {ι : Type x} {C : Callbacks σ ω δ ι} {d : σ}
  {s t : State σ ω δ} {a : CellThread.Act ι} {i : Inside}

/-! ## The two sides -/

theorem step_thread : step C s (.thread a) = some t ↔
    CellThread.step C s.thread a = some t.thread ∧
      waitsStep s.waits (calls a) = some t.waits := by
  rw [step, Option.bind_eq_some_iff]
  constructor
  · rintro ⟨u, hu, h⟩
    obtain ⟨w, hw, rfl⟩ := Option.map_eq_some_iff.mp h
    exact ⟨hu, hw⟩
  · rintro ⟨hthread, hwaits⟩
    exact ⟨t.thread, hthread, Option.map_eq_some_iff.mpr ⟨t.waits, hwaits, rfl⟩⟩

theorem step_inside (h : step C s (.inside i) = some t) :
    t.thread = s.thread ∧ SemaphoreWaits.step s.waits i.act = some t.waits ∧
      (i = .test → s.waits.sem.mayResume = false) := by
  rw [step, Option.ite_none_left_eq_some] at h
  obtain ⟨hnot, h⟩ := h
  obtain ⟨w, hw, rfl⟩ := Option.map_eq_some_iff.mp h
  exact ⟨rfl, hw, fun hi => eq_false_of_ne_true fun hmay => hnot ⟨hi, hmay⟩⟩

/-- The thread, seen alone. -/
def threadProjection (C : Callbacks σ ω δ ι) (d : σ) :
    Projection (threadWaits C d) (cellThread C d) where
  Good _ := True
  view s := s.thread
  act _
    | .thread a => some a
    | .inside _ => none
  good_init := trivial
  good_step _ _ := trivial
  view_init := rfl
  stay := fun {_ _ i} _ hstep hact => by
    cases i with
    | thread a => cases hact
    | inside i => exact (step_inside (C := C) hstep).1
  step := fun {_ _ i _} _ hstep hact => by
    cases i with
    | thread a =>
      obtain rfl := Option.some.inj hact
      exact ((step_thread (C := C)).mp hstep).1
    | inside i => cases hact

/-- The semaphore, seen alone. -/
def waitsProjection (C : Callbacks σ ω δ ι) (d : σ) :
    Projection (threadWaits C d) (semaphoreWaits 2) where
  Good _ := True
  view s := s.waits
  act _
    | .thread a => calls a
    | .inside i => some i.act
  good_init := trivial
  good_step _ _ := trivial
  view_init := rfl
  stay := fun {s t i} _ hstep hact => by
    cases i with
    | thread a =>
      have hwaits := ((step_thread (C := C)).mp hstep).2
      rw [show calls a = none from hact] at hwaits
      exact (Option.some.inj hwaits).symm
    | inside i => cases hact
  step := fun {s t i k} _ hstep hact => by
    cases i with
    | thread a =>
      have hwaits := ((step_thread (C := C)).mp hstep).2
      rw [show calls a = some k from hact] at hwaits
      exact hwaits
    | inside i =>
      obtain rfl := Option.some.inj hact
      exact (step_inside (C := C) hstep).2.1

/-! ## Agreement -/

/-- The counters of the two are the same, and so is where the `Close` is. -/
structure Agree (s : State σ ω δ) : Prop where
  sem : s.waits.sem = s.thread.sem
  place : ∃ l, s.waits.threads = [l, .outside] ∧
    (l.blocked = true ↔ s.thread.close = .blocked)

/-- A step that does not call the semaphore leaves it, and no `Close` begins or ends to wait. -/
theorem same_of_calls_none {s t : CellThread.State σ ω δ} (hcalls : calls a = none)
    (h : CellThread.step C s a = some t) :
    t.sem = s.sem ∧ (t.close = .blocked ↔ s.close = .blocked) := by
  cases a with
  | start =>
    obtain ⟨-, rfl⟩ := CellThread.step_start.mp h
    unfold CellThread.start
    split_ifs <;> exact ⟨rfl, Iff.rfl⟩
  | close =>
    obtain ⟨hidle, rfl⟩ := CellThread.step_close.mp h
    unfold CellThread.closeEnter
    split_ifs
    · exact ⟨rfl, by simp [hidle]⟩
    · exact ⟨rfl, Iff.rfl⟩
  | closeReturn =>
    obtain ⟨hreturning, rfl⟩ := CellThread.step_closeReturn.mp h
    exact ⟨rfl, by simp [hreturning]⟩
  | create j =>
    obtain ⟨-, rfl⟩ := CellThread.step_create.mp h
    exact ⟨rfl, Iff.rfl⟩
  | run j i =>
    obtain ⟨_, _, _, -, -, rfl⟩ := CellThread.step_run.mp h
    exact ⟨rfl, Iff.rfl⟩
  | exit j =>
    obtain ⟨_, -, -, rfl⟩ := CellThread.step_exit.mp h
    exact ⟨rfl, Iff.rfl⟩
  | destroy j i =>
    obtain ⟨_, _, _, -, -, rfl⟩ := CellThread.step_destroy.mp h
    exact ⟨rfl, Iff.rfl⟩
  | external i =>
    obtain ⟨_, -, rfl⟩ := CellThread.step_external.mp h
    exact ⟨rfl, Iff.rfl⟩
  | wait | resume | wakeup => cases hcalls

theorem Agree.wait (h : Agree s) (hstopping : s.thread.close = .stopping) :
    Agree (⟨CellThread.closeWait s.thread, SemaphoreWaits.enter s.waits 0⟩ : State σ ω δ) := by
  obtain ⟨l, hthreads, hblocked⟩ := h.place
  have hl : l.blocked = false := eq_false_of_ne_true fun hb => by
    rw [hblocked.mp hb] at hstopping
    cases hstopping
  unfold CellThread.closeWait SemaphoreWaits.enter
  rw [h.sem]
  split_ifs with hblocks
  · exact ⟨rfl, .testing, by rw [hthreads]; rfl, by simp [SemaphoreWaits.Loc.blocked]⟩
  · exact ⟨rfl, l, hthreads, by simp [hl]⟩

theorem Agree.resume (h : Agree s) (hmay : s.thread.sem.mayResume = true)
    {u : CellThread.State σ ω δ} (hu : u = { s.thread with
      close := .returning, sem := s.thread.sem.resume, closeReturned := false }) :
    Agree (⟨u, SemaphoreWaits.test s.waits 0⟩ : State σ ω δ) := by
  obtain ⟨l, hthreads, -⟩ := h.place
  rw [SemaphoreWaits.test, h.sem, if_pos hmay, hu]
  exact ⟨rfl, .outside, by rw [hthreads]; rfl, by simp [SemaphoreWaits.Loc.blocked]⟩

/-- The place of the `Close` moves inside `_cond.wait`. -/
theorem Agree.move (h : Agree s) {l m : SemaphoreWaits.Loc} (hl : s.waits.threads[0]? = some l)
    (hin : l.blocked = true) (hin' : m.blocked = true) :
    ∃ n, s.waits.threads.set 0 m = [n, .outside] ∧
      (n.blocked = true ↔ s.thread.close = .blocked) := by
  obtain ⟨n, hthreads, hblocked⟩ := h.place
  rw [hthreads] at hl ⊢
  obtain rfl := Option.some.inj hl
  exact ⟨m, rfl, (iff_of_true hin' hin).trans hblocked⟩

theorem Agree.wakeup (h : Agree s) {w : SemaphoreWaits.State}
    (hw : SemaphoreWaits.step s.waits (.wakeup 1 0) = some w) {u : CellThread.State σ ω δ}
    (hsem : u.sem = s.thread.sem.signal) (hclose : u.close = s.thread.close) :
    Agree (⟨u, w⟩ : State σ ω δ) := by
  obtain ⟨l, hthreads, hblocked⟩ := h.place
  rw [← h.sem] at hsem
  obtain ⟨-, threads, ⟨hl, rfl⟩ | ⟨-, rfl⟩, rfl⟩ | ⟨-, rfl⟩ := SemaphoreWaits.step_wakeup hw
  · obtain ⟨m, hset, hm⟩ := h.move (m := .woken) hl rfl rfl
    exact ⟨hsem.symm, m, hset, hclose ▸ hm⟩
  · exact ⟨hsem.symm, l, hthreads, hclose ▸ hblocked⟩
  · exact ⟨hsem.symm, l, hthreads, hclose ▸ hblocked⟩

theorem Agree.inside (h : Agree s) (hstep : step C s (.inside i) = some t) : Agree t := by
  obtain ⟨hthread, hwaits, htest⟩ := step_inside hstep
  obtain ⟨thread, w⟩ := t
  obtain rfl : thread = s.thread := hthread
  cases i with
  | test =>
    obtain ⟨hl, hw⟩ := SemaphoreWaits.step_test hwaits
    obtain rfl : w = SemaphoreWaits.test s.waits 0 := hw
    rw [SemaphoreWaits.test, if_neg (by rw [htest rfl]; decide)]
    obtain ⟨m, hset, hm⟩ := h.move (m := .asleep) hl rfl rfl
    exact ⟨h.sem, m, hset, hm⟩
  | spurious =>
    obtain ⟨hl, hw⟩ := SemaphoreWaits.step_spurious hwaits
    obtain ⟨m, hset, hm⟩ := h.move (m := .woken) hl rfl rfl
    subst hw
    exact ⟨h.sem, m, hset, hm⟩
  | relock =>
    obtain ⟨hl, hw⟩ := SemaphoreWaits.step_relock hwaits
    obtain ⟨m, hset, hm⟩ := h.move (m := .testing) hl rfl rfl
    subst hw
    exact ⟨h.sem, m, hset, hm⟩

theorem Agree.step (h : Agree s) {i : Act ι} (hstep : step C s i = some t) : Agree t := by
  cases i with
  | inside i => exact h.inside hstep
  | thread a =>
    obtain ⟨hthread, hwaits⟩ := step_thread.mp hstep
    obtain ⟨thread, w⟩ := t
    cases hcalls : calls a with
    | none =>
      rw [hcalls] at hwaits
      obtain rfl : s.waits = w := Option.some.inj hwaits
      obtain ⟨hsem, hclose⟩ := same_of_calls_none hcalls hthread
      obtain ⟨l, hthreads, hblocked⟩ := h.place
      exact ⟨h.sem.trans hsem.symm, l, hthreads, hblocked.trans hclose.symm⟩
    | some k =>
      rw [hcalls] at hwaits
      cases a with
      | wait =>
        obtain rfl := Option.some.inj hcalls
        obtain ⟨hstopping, hu⟩ := CellThread.step_wait.mp hthread
        obtain ⟨-, hw⟩ := SemaphoreWaits.step_wait hwaits
        obtain rfl : thread = _ := hu
        obtain rfl : w = _ := hw
        exact h.wait hstopping
      | resume =>
        obtain rfl := Option.some.inj hcalls
        obtain ⟨⟨-, hmay⟩, hu⟩ := CellThread.step_resume.mp hthread
        obtain ⟨-, hw⟩ := SemaphoreWaits.step_test hwaits
        obtain rfl : w = _ := hw
        exact h.resume hmay hu
      | wakeup j =>
        obtain rfl := Option.some.inj hcalls
        obtain ⟨-, hu⟩ := CellThread.step_wakeup.mp hthread
        obtain rfl : thread = _ := hu
        exact h.wakeup hwaits rfl rfl
      | _ => cases hcalls

theorem agree_of_reachable (h : (threadWaits C d).Reachable s) : Agree s :=
  h.invariant ⟨rfl, .outside, rfl, by simp [threadWaits, cellThread, SemaphoreWaits.Loc.blocked]⟩
    fun _ _ _ hs hstep => hs.step hstep

/-! ## Progress -/

section Progress

variable {w : SemaphoreWaits.State} {l : SemaphoreWaits.Loc}

theorem free_iff (hthreads : w.threads = [l, .outside]) : w.Free ↔ l ≠ .testing := by
  rw [SemaphoreWaits.State.Free, hthreads]
  simp [eq_comm]

/-- A `wakeup` has its turn when the `Close` is not about to test. -/
theorem exists_wakeup (hthreads : w.threads = [l, .outside]) (hl : l ≠ .testing) :
    ∃ w', SemaphoreWaits.step w (.wakeup 1 0) = some w' := by
  have hcaller : w.threads[1]? = some .outside := by rw [hthreads]; rfl
  rw [SemaphoreWaits.step, if_pos ⟨(free_iff hthreads).mpr hl, hcaller⟩, SemaphoreWaits.wakeup,
    SemaphoreWaits.notifyOne, hthreads]
  split_ifs with hwait hasleep hfirst
  · exact ⟨_, rfl⟩
  · refine absurd ?_ hfirst
    simp only [List.mem_cons, reduceCtorEq, List.not_mem_nil, or_false] at hasleep
    rw [← hasleep]
    rfl
  · exact ⟨_, rfl⟩
  · exact ⟨_, rfl⟩

theorem exists_enter (hthreads : w.threads = [l, .outside]) (hl : l.blocked = false) :
    ∃ w', SemaphoreWaits.step w (.wait 0) = some w' := by
  cases l with
  | outside =>
    have hcaller : w.threads[0]? = some .outside := by rw [hthreads]; rfl
    exact ⟨_, if_pos ⟨(free_iff hthreads).mpr (by decide), hcaller⟩⟩
  | _ => cases hl

/-- A permission finds the `Close` awake. -/
theorem awake_of_mayResume (hinv : SemaphoreWaits.Inv w) (hthreads : w.threads = [l, .outside])
    (hmay : w.sem.mayResume = true) : l = .testing ∨ l = .woken := by
  have hpos := w.sem.mayResume_iff.mp hmay
  have hle := hinv.wakeup_le
  rw [hthreads] at hle
  cases l with
  | testing => exact .inl rfl
  | woken => exact .inr rfl
  | outside | asleep =>
    have hzero : SemaphoreWaits.awakeCount [.outside, .outside] = 0 ∧
        SemaphoreWaits.awakeCount [.asleep, .outside] = 0 := by decide
    omega

end Progress

/-- Behind steps inside `_cond.wait` the thread takes its step. -/
def Follows (C : Callbacks σ ω δ ι) (d : σ) (s : State σ ω δ) (a : CellThread.Act ι)
    (t : CellThread.State σ ω δ) (is : List Inside) : Prop :=
  ∃ u v, (threadWaits C d).run s (is.map .inside) = some u ∧
    (threadWaits C d).step u (.thread a) = some v ∧ v.thread = t

section Follows

variable {t : CellThread.State σ ω δ} {w : SemaphoreWaits.State}

theorem follows_nil (hthread : CellThread.step C s.thread a = some t)
    (hwaits : waitsStep s.waits (calls a) = some w) : Follows C d s a t [] :=
  ⟨s, ⟨t, w⟩, rfl, step_thread.mpr ⟨hthread, hwaits⟩, rfl⟩

theorem follows_one (hinside : SemaphoreWaits.step s.waits i.act = some w)
    (htest : i = .test → s.waits.sem.mayResume = false)
    (h : Follows C d ⟨s.thread, w⟩ a t []) : Follows C d s a t [i] := by
  obtain ⟨u, v, hrun, hstep, hv⟩ := h
  have hfirst : (threadWaits C d).step s (.inside i) = some ⟨s.thread, w⟩ := by
    show step C s (.inside i) = _
    rw [step, if_neg, hinside]
    · rfl
    · rintro ⟨hi, hmay⟩
      exact Bool.false_ne_true ((htest hi).symm.trans hmay)
  refine ⟨u, v, ?_, hstep, hv⟩
  rw [List.map_singleton, Machine.run_cons, hfirst, Option.bind_some]
  exact hrun

/-- A `Close` that may go on is about to test, or has to get the mutex. -/
theorem Agree.follows_resume (h : Agree s) (hinv : SemaphoreWaits.Inv s.waits)
    (hthread : CellThread.step C s.thread .resume = some t) :
    ∃ is : List Inside, is.length ≤ 1 ∧ Follows C d s .resume t is := by
  obtain ⟨⟨-, hmay⟩, -⟩ := CellThread.step_resume.mp hthread
  obtain ⟨l, hthreads, -⟩ := h.place
  rw [← h.sem] at hmay
  rcases awake_of_mayResume hinv hthreads hmay with rfl | rfl
  · have htest : SemaphoreWaits.step s.waits (.test 0) = some (SemaphoreWaits.test s.waits 0) :=
      if_pos (by rw [hthreads]; rfl)
    exact ⟨[], Nat.zero_le 1, follows_nil hthread htest⟩
  · have hrelock : SemaphoreWaits.step s.waits (.relock 0) =
        some { s.waits with threads := s.waits.threads.set 0 .testing } :=
      if_pos ⟨(free_iff hthreads).mpr (by decide), by rw [hthreads]; rfl⟩
    refine ⟨[.relock], Nat.le_refl 1, follows_one hrelock (fun hi => Inside.noConfusion hi) ?_⟩
    exact follows_nil hthread (if_pos (by rw [hthreads]; rfl))

/-- A `wakeup` waits for a `Close` that is about to test. -/
theorem Agree.follows_wakeup (h : Agree s) {j : ℕ}
    (hthread : CellThread.step C s.thread (.wakeup j) = some t) :
    (∃ is : List Inside, is.length ≤ 1 ∧ Follows C d s (.wakeup j) t is) ∨
      ∃ v, (threadWaits C d).run s [.thread .resume, .thread (.wakeup j)] = some v := by
  obtain ⟨l, hthreads, hblocked⟩ := h.place
  by_cases hl : l = .testing
  · subst hl
    have hl : s.waits.threads[0]? = some .testing := by rw [hthreads]; rfl
    have htest : SemaphoreWaits.step s.waits (.test 0) = some (SemaphoreWaits.test s.waits 0) :=
      if_pos hl
    cases hmay : s.waits.sem.mayResume with
    | false =>
      -- it goes to sleep
      have hasleep : (SemaphoreWaits.test s.waits 0).threads = [.asleep, .outside] := by
        rw [SemaphoreWaits.test, if_neg (by rw [hmay]; decide), hthreads]
        rfl
      obtain ⟨w', hw'⟩ := exists_wakeup hasleep (by decide)
      exact .inl ⟨[.test], Nat.le_refl 1,
        follows_one htest (fun _ => hmay) (follows_nil hthread hw')⟩
    | true =>
      -- it goes on, and is outside then
      refine .inr ?_
      have houtside : (SemaphoreWaits.test s.waits 0).threads = [.outside, .outside] := by
        rw [SemaphoreWaits.test, if_pos hmay, hthreads]
        rfl
      obtain ⟨w', hw'⟩ := exists_wakeup houtside (by decide)
      let u : CellThread.State σ ω δ :=
        { s.thread with close := .returning, sem := s.thread.sem.resume, closeReturned := false }
      have hresume : CellThread.step C s.thread .resume = some u :=
        CellThread.step_resume.mpr ⟨⟨hblocked.mp rfl, h.sem ▸ hmay⟩, rfl⟩
      have hfirst : (threadWaits C d).step s (.thread .resume) =
          some ⟨u, SemaphoreWaits.test s.waits 0⟩ := step_thread.mpr ⟨hresume, htest⟩
      obtain ⟨hworker, -⟩ := CellThread.step_wakeup.mp hthread
      have hsecond : (threadWaits C d).step ⟨u, SemaphoreWaits.test s.waits 0⟩
          (.thread (.wakeup j)) = some ⟨{ u.setWorker j .done with sem := u.sem.signal }, w'⟩ :=
        step_thread.mpr ⟨CellThread.step_wakeup.mpr ⟨hworker, rfl⟩, hw'⟩
      refine ⟨⟨{ u.setWorker j .done with sem := u.sem.signal }, w'⟩, ?_⟩
      rw [Machine.run_cons, hfirst, Option.bind_some, Machine.run_cons, hsecond]
      rfl
  · obtain ⟨w', hw'⟩ := exists_wakeup hthreads hl
    exact .inl ⟨[], Nat.zero_le 1, follows_nil hthread hw'⟩

end Follows

/-- **A thread on its semaphore.**  A run of the two is a run of the thread and one of the
semaphore, with the same counters.  Whatever the thread can do next it does, at the latest behind
one step inside `_cond.wait`: no `wakeup` is lost, and no `Close` sleeps that may go on.  Only a
`wakeup` may have to let a `Close` out first. -/
theorem thread_on_semaphore (h : (threadWaits C d).Reachable s) :
    (cellThread C d).Reachable s.thread ∧ (semaphoreWaits 2).Reachable s.waits ∧
      s.waits.sem = s.thread.sem ∧
      ∀ a t, (cellThread C d).step s.thread a = some t →
        (∃ is : List Inside, is.length ≤ 1 ∧ Follows C d s a t is) ∨
          ∃ j, a = .wakeup j ∧
            ∃ v, (threadWaits C d).run s [.thread .resume, .thread (.wakeup j)] = some v := by
  have hthread : (cellThread C d).Reachable s.thread :=
    ((threadProjection C d).reachWithin (fun _ _ _ _ _ _ _ _ => trivial) h).2
  have hwaits : (semaphoreWaits 2).Reachable s.waits :=
    ((waitsProjection C d).reachWithin (fun _ _ _ _ _ _ _ _ => trivial) h).2
  have hagree := agree_of_reachable h
  refine ⟨hthread, hwaits, hagree.sem, fun a t hstep => ?_⟩
  cases hcalls : calls a with
  | none => exact .inl ⟨[], Nat.zero_le 1, follows_nil hstep (congrArg _ hcalls)⟩
  | some i =>
    cases a with
    | wait =>
      obtain ⟨l, hthreads, hblocked⟩ := hagree.place
      obtain ⟨hstopping, -⟩ := (CellThread.step_wait (C := C)).mp hstep
      have hl : l.blocked = false := eq_false_of_ne_true fun hb => by
        rw [hblocked.mp hb] at hstopping
        cases hstopping
      obtain ⟨w, hw⟩ := exists_enter hthreads hl
      exact .inl ⟨[], Nat.zero_le 1, follows_nil hstep hw⟩
    | resume =>
      exact .inl (hagree.follows_resume (SemaphoreWaits.inv_of_reachable 2 hwaits) hstep)
    | wakeup j => exact (hagree.follows_wakeup hstep).imp_right fun hv => ⟨j, rfl, hv⟩
    | _ => cases hcalls

/-- The `Close` of a task server sleeps, is woken for no reason, and sleeps again; then the worker
calls `wakeup`. -/
theorem thread_on_semaphore_woken : ∃ s : State CellTaskServer.Numbered CellTaskServer.Loc Unit,
    (threadWaits CellTaskServer.callbacks ⟨.new, 0, []⟩).Reachable s ∧
      (s.waits.threads = [.woken, .outside] ∧ s.thread.close = .blocked) ∧
      (cellThread CellTaskServer.callbacks ⟨.new, 0, []⟩).Reachable s.thread ∧
      (semaphoreWaits 2).Reachable s.waits ∧ s.waits.sem = s.thread.sem ∧
      ∀ a t, (cellThread CellTaskServer.callbacks ⟨.new, 0, []⟩).step s.thread a = some t →
        (∃ is : List Inside, is.length ≤ 1 ∧
          Follows CellTaskServer.callbacks ⟨.new, 0, []⟩ s a t is) ∨
          ∃ j, a = .wakeup j ∧
            ∃ v, (threadWaits CellTaskServer.callbacks ⟨.new, 0, []⟩).run s
              [.thread .resume, .thread (.wakeup j)] = some v := by
  obtain ⟨s, hs, hp⟩ := Machine.exists_reachable_of_run
    (M := threadWaits CellTaskServer.callbacks ⟨.new, 0, []⟩)
    [.thread .start, .thread (.create 0), .thread .close, .thread .wait, .inside .test,
      .inside .spurious, .thread (.run 0 .tau), .inside .relock, .inside .test,
      .thread (.run 0 .tau), .thread (.run 0 .tau), .thread (.destroy 0 .tau),
      .thread (.wakeup 0)]
    (fun s => decide (s.waits.threads = [.woken, .outside] ∧ s.thread.close = .blocked))
    (by decide +kernel)
  exact ⟨s, hs, of_decide_eq_true hp, thread_on_semaphore hs⟩

end ThreadWaits
end EasyTcpServer
