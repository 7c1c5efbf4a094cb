import EasyTcpServer.Thread.QuietThread

/-!
# What an `Exit` leaves behind

A worker that calls `Exit` lowers `_isRun` and goes on, and when it ends its `wakeup` stays
in the semaphore, because no `Close` waits for it.  Both are told by what has been called in
the run so far, so the condition under which a `Cell_Thread` keeps order is one on its
history.

* `Undisturbed` is that condition: while a worker that has called `Exit` is still on its way,
  neither `Start` nor `Close` is called, and a `Close` that is to wait is called in a run
  without an `Exit` only.
* `historyInv_of_reachWithin`: before the first `Exit` the run is as in `BeforeExit`, behind it
  the workers that are alive have called `Exit`, or a later `Start` has spawned them.
* `violation_of_not_undisturbed`: a call of `Start` or `Close` outside the condition breaks
  order, at once or when that `Close` goes on to return.
-/

namespace EasyTcpServer

universe u v w x

namespace CellThread

variable {σ : Type u} {ω : Type v} {δ : Type w} {ι : Type x}
variable {C : Callbacks σ ω δ ι} {s t : State σ ω δ} {as : List (Act ι)} {a : Act ι}

/-! ## The condition -/

/-- The worker that gets the mutex in `Exit`, if the step is one of `Exit`. -/
def Act.exit? : Act ι → Option ℕ
  | .exit j => some j
  | _ => none

/-- The workers that have called `Exit`. -/
def exited (as : List (Act ι)) : List ℕ := as.filterMap Act.exit?

/-- Every worker that has called `Exit` has called `wakeup`. -/
def ExitsEnded (as : List (Act ι)) : Prop := ∀ j ∈ exited as, .wakeup j ∈ as

instance [DecidableEq ι] (as : List (Act ι)) : Decidable (ExitsEnded as) := by
  unfold ExitsEnded
  infer_instance

/-- The calls of `Start` and `Close` that no `Exit` disturbs: the workers that have called
`Exit` have ended; and a `Close` that finds `_isRun` up finds no `wakeup` of such a worker in
the semaphore. -/
def Undisturbed (h : List (Act ι) × State σ ω δ) : Act ι → Prop
  | .start => ExitsEnded h.1
  | .close => ExitsEnded h.1 ∧ (h.2.isRun = true → exited h.1 = [])
  | _ => True

instance [DecidableEq ι] (h : List (Act ι) × State σ ω δ) : ∀ a, Decidable (Undisturbed h a)
  | .start => inferInstanceAs (Decidable (ExitsEnded h.1))
  | .close => inferInstanceAs (Decidable (ExitsEnded h.1 ∧ (h.2.isRun = true → exited h.1 = [])))
  | .wait | .resume | .closeReturn | .create _ | .run _ _ | .exit _ | .destroy _ _ | .wakeup _
  | .external _ => .isTrue trivial

/-! ### Histories that grow by a step -/

theorem exited_concat_exit (as : List (Act ι)) (j : ℕ) :
    exited (as ++ [.exit j]) = exited as ++ [j] := List.filterMap_append

theorem exited_concat (as : List (Act ι)) (hexit : ∀ j, a ≠ .exit j) :
    exited (as ++ [a]) = exited as := by
  have hnone : a.exit? = none := by
    cases a with
    | exit j => exact absurd rfl (hexit j)
    | _ => rfl
  rw [exited, List.filterMap_append, List.filterMap_cons_none hnone, List.filterMap_nil,
    List.append_nil, exited]

theorem wakeup_mem_concat (hwakeup : ∀ j, a ≠ .wakeup j) {j : ℕ} :
    Act.wakeup j ∈ as ++ [a] ↔ Act.wakeup j ∈ as := by
  rw [List.mem_append, List.mem_singleton, or_iff_left (hwakeup j).symm]

/-! ## The invariant -/

/-- What holds behind an `Exit`. -/
structure AfterExit (as : List (Act ι)) (s : State σ ω δ) : Prop where
  /-- No `Close` waits from then on. -/
  idle : s.close = .idle
  stopped : s.isRun = false → ∀ ⦃j w⦄, s.workers[j]? = some w → w.Alive → j ∈ exited as
  running : s.isRun = true → ExitsEnded as
  /-- The `wakeup` of a worker that has called `Exit` stays in the semaphore. -/
  left_over : ∀ j ∈ exited as, .wakeup j ∈ as → 0 < s.sem.wait

/-- What the calls of the workers tell of their places. -/
structure Told (as : List (Act ι)) (s : State σ ω δ) : Prop where
  done : ∀ j, .wakeup j ∈ as ↔ s.workers[j]? = some .done
  exited_lt : ∀ j ∈ exited as, j < s.workers.length

/-- What holds of an undisturbed run and the state it has come to. -/
structure HistoryInv (as : List (Act ι)) (s : State σ ω δ) : Prop where
  inv : Inv s
  told : Told as s
  before : exited as = [] → BeforeExit s
  after : exited as ≠ [] → AfterExit as s

namespace HistoryInv

/-- When the workers that have called `Exit` have ended and the flag is down, all have. -/
theorem allDone (h : HistoryInv as s) (hended : ExitsEnded as) (hidle : s.close = .idle)
    (hrun : s.isRun = false) : s.AllDone := by
  by_cases hnone : exited as = []
  · exact ((h.before hnone).stopped hidle hrun).1
  · intro w hw halive
    obtain ⟨j, hj⟩ := List.mem_iff_getElem?.mp hw
    have hexited := (h.after hnone).stopped hrun hj halive
    obtain rfl : w = .done :=
      Option.some.inj (hj.symm.trans ((h.told.done j).mp (hended j hexited)))
    exact halive

/-- An undisturbed call keeps order. -/
theorem orderly (h : HistoryInv as s) (hok : Undisturbed (as, s) a)
    (hstep : step C s a = some t) : Orderly s a := by
  cases a with
  | start => exact h.allDone hok (step_start.mp hstep).1
  | close => exact fun hrun => (h.allDone hok.1 (step_close.mp hstep).1 hrun).allAfter
  | wait =>
    by_cases hnone : exited as = []
    · exact (h.before hnone).orderly hstep
    · exact absurd ((h.after hnone).idle.symm.trans (step_wait.mp hstep).1) (by simp)
  | _ => trivial

end HistoryInv

/-! ### What the calls tell -/

theorem signal_ne (c : CellSemaphore) : c.signal ≠ c := by
  intro h
  have hwait := congrArg CellSemaphore.wait h
  rw [CellSemaphore.signal_wait] at hwait
  omega

/-- Only a worker that calls `wakeup` signals the semaphore. -/
theorem sem_of_worker {j : ℕ} (ha : a.worker? = some j) (hwakeup : a ≠ .wakeup j)
    (h : step C s a = some t) : t.sem = s.sem := by
  cases a with
  | create k =>
    obtain ⟨-, rfl⟩ := step_create.mp h
    rfl
  | run k i =>
    obtain ⟨_, _, _, -, -, rfl⟩ := step_run.mp h
    rfl
  | exit k =>
    obtain ⟨_, -, -, rfl⟩ := step_exit.mp h
    rfl
  | destroy k i =>
    obtain ⟨_, _, _, -, -, rfl⟩ := step_destroy.mp h
    rfl
  | wakeup k => exact absurd (congrArg Act.wakeup (Option.some.inj ha)) hwakeup
  | _ => cases ha

/-- A move comes to the end exactly by `wakeup`. -/
theorem WorkerMove.eq_done_iff {j : ℕ} {w w' : Worker ω δ} (hmove : WorkerMove C s t j w w')
    (ha : a.worker? = some j) (h : step C s a = some t) : w' = .done ↔ a = .wakeup j := by
  by_cases hwakeup : a = .wakeup j
  · subst hwakeup
    obtain ⟨-, rfl⟩ := step_wakeup.mp h
    rcases hmove.sem with ⟨hsem, -⟩ | ⟨-, hdone⟩
    · exact absurd hsem (signal_ne _)
    · exact iff_of_true hdone rfl
  · refine iff_of_false (fun hdone => ?_) hwakeup
    subst hdone
    rcases hmove.sem with ⟨-, halive⟩ | ⟨hsem, -⟩
    · exact halive
    · exact signal_ne _ (hsem.symm.trans (sem_of_worker ha hwakeup h))

/-- A worker is done when it was done before, or calls `wakeup` now. -/
theorem getElem?_done_step (h : step C s a = some t) {j : ℕ} :
    t.workers[j]? = some .done ↔ s.workers[j]? = some .done ∨ a = .wakeup j := by
  rcases hworker : a.worker? with _ | k
  · have hne : a ≠ .wakeup j := by
      rintro rfl
      cases hworker
    rw [or_iff_left hne]
    rcases workers_of_control hworker h with hsame | hnew
    · rw [hsame]
    · rw [hnew, List.getElem?_append]
      split_ifs with hlt
      · rfl
      · rw [List.getElem?_eq_none (Nat.le_of_not_lt hlt), List.getElem?_singleton]
        split_ifs <;> simp
  · obtain ⟨w, w', hmove⟩ := workerMove hworker h
    have hlt := (List.getElem?_eq_some_iff.mp hmove.worker).1
    rw [hmove.workers]
    by_cases hkj : k = j
    · subst hkj
      have hnot : s.workers[k]? ≠ some .done := by
        intro hdone
        obtain rfl : w = .done := Option.some.inj (hmove.worker.symm.trans hdone)
        exact hmove.alive
      rw [List.getElem?_set_self hlt, or_iff_right hnot, Option.some.injEq]
      exact hmove.eq_done_iff hworker h
    · rw [List.getElem?_set_ne hkj]
      refine (or_iff_left ?_).symm
      rintro rfl
      exact hkj (Option.some.inj hworker).symm

theorem length_workers_step (h : step C s a = some t) : s.workers.length ≤ t.workers.length := by
  rcases hworker : a.worker? with _ | k
  · rcases workers_of_control hworker h with hsame | hnew
    · exact Nat.le_of_eq (congrArg List.length hsame).symm
    · rw [hnew, List.length_append]
      exact Nat.le_add_right _ _
  · obtain ⟨w, w', hmove⟩ := workerMove hworker h
    rw [hmove.workers]
    exact Nat.le_of_eq List.length_set.symm

theorem Told.step (hs : Told as s) (h : step C s a = some t) : Told (as ++ [a]) t := by
  refine ⟨fun j => ?_, fun j hj => Nat.lt_of_lt_of_le ?_ (length_workers_step h)⟩
  · rw [List.mem_append, List.mem_singleton, hs.done, getElem?_done_step h, eq_comm (a := a)]
  · by_cases hexit : ∃ k, a = .exit k
    · obtain ⟨k, rfl⟩ := hexit
      rw [exited_concat_exit, List.mem_append, List.mem_singleton] at hj
      rcases hj with hj | rfl
      · exact hs.exited_lt j hj
      · obtain ⟨l, hw, -⟩ := step_exit.mp h
        exact (List.getElem?_eq_some_iff.mp hw).1
    · rw [exited_concat as fun k hk => hexit ⟨k, hk⟩] at hj
      exact hs.exited_lt j hj

/-! ### Steps behind an `Exit` -/

/-- Whoever gets the mutex in `Exit` is the only worker that is alive. -/
theorem HistoryInv.exit {j : ℕ} (hs : HistoryInv as s) (h : step C s (.exit j) = some t) :
    AfterExit (as ++ [.exit j]) t := by
  obtain ⟨l, hw, hidle, rfl⟩ := step_exit.mp h
  refine ⟨hidle, fun _ i v hv halive => ?_, fun hrun => (by cases hrun), fun i hi hended => ?_⟩
  · obtain ⟨v', hv', halive'⟩ := (move_exit (C := C) hw).alive_of_alive hv halive
    obtain rfl : i = j := hs.inv.single hv' hw halive' trivial
    rw [exited_concat_exit]
    exact List.mem_append_right _ (List.mem_singleton_self i)
  · rw [wakeup_mem_concat (fun k => by simp)] at hended
    rw [exited_concat_exit, List.mem_append, List.mem_singleton] at hi
    rcases hi with hi | rfl
    · exact (hs.after (List.ne_nil_of_mem hi)).left_over i hi hended
    · -- a worker at the lock has not called `wakeup`
      have hdone := (hs.told.done i).mp hended
      rw [hw] at hdone
      cases hdone

theorem AfterExit.worker {j : ℕ} (hs : AfterExit as s) (hinv : Inv s) (ha : a.worker? = some j)
    (hexit : ∀ k, a ≠ .exit k) (h : step C s a = some t) : AfterExit (as ++ [a]) t := by
  obtain ⟨w, w', hmove⟩ := workerMove ha h
  have hrun := isRun_of_worker ha hexit h
  have hwait : 0 ≤ s.sem.wait := (hinv.sem_free (by simp [hs.idle])).2
  have hexited := exited_concat as hexit
  refine ⟨hmove.close.trans hs.idle, fun hstop i v hv halive => ?_, fun hup i hi => ?_,
    fun i hi hended => ?_⟩
  · obtain ⟨v', hv', halive'⟩ := hmove.alive_of_alive hv halive
    rw [hexited]
    exact hs.stopped (hrun ▸ hstop) hv' halive'
  · rw [hexited] at hi
    exact List.mem_append_left _ (hs.running (hrun ▸ hup) i hi)
  · rcases hmove.sem with ⟨hsem, halive⟩ | ⟨hsem, -⟩
    · have hwakeup : ∀ k, a ≠ .wakeup k := by
        rintro k rfl
        obtain ⟨-, rfl⟩ := step_wakeup.mp h
        exact signal_ne _ hsem
      rw [hexited] at hi
      rw [wakeup_mem_concat hwakeup] at hended
      rw [hsem]
      exact hs.left_over i hi hended
    · rw [hsem, CellSemaphore.signal_wait]
      omega

theorem AfterExit.control (hs : AfterExit as s) (hnone : exited as ≠ [])
    (ha : a.worker? = none) (hok : Undisturbed (as, s) a) (h : step C s a = some t) :
    AfterExit (as ++ [a]) t := by
  have hexited : exited (as ++ [a]) = exited as :=
    exited_concat as fun j hj => by subst hj; cases ha
  have hended : ∀ j, Act.wakeup j ∈ as ++ [a] ↔ Act.wakeup j ∈ as := fun j =>
    wakeup_mem_concat fun k hk => by subst hk; cases ha
  -- a step that leaves the flag, the workers and the semaphore
  have hsame (hclose : t.close = s.close) (hrun : t.isRun = s.isRun)
      (hworkers : t.workers = s.workers) (hsem : t.sem = s.sem) : AfterExit (as ++ [a]) t := by
    refine ⟨hclose.trans hs.idle, fun hstop i v hv halive => ?_, fun hup i hi => ?_,
      fun i hi hi' => ?_⟩
    · rw [hexited]
      exact hs.stopped (hrun ▸ hstop) (hworkers ▸ hv) halive
    · rw [hended]
      exact hs.running (hrun ▸ hup) i (hexited ▸ hi)
    · rw [hsem]
      exact hs.left_over i (hexited ▸ hi) ((hended i).mp hi')
  cases a with
  | start =>
    obtain ⟨-, rfl⟩ := step_start.mp h
    by_cases hrun : s.isRun = true
    · rw [start, if_pos hrun] at hsame ⊢
      exact hsame rfl rfl rfl rfl
    · rw [start, if_neg hrun]
      refine ⟨hs.idle, fun hstop => (by cases hstop), fun _ i hi => ?_, fun i hi hi' => ?_⟩
      · rw [hended]
        exact hok i (hexited ▸ hi)
      · exact hs.left_over i (hexited ▸ hi) ((hended i).mp hi')
  | close =>
    obtain ⟨-, rfl⟩ := step_close.mp h
    have hrun : ¬ s.isRun = true := fun hrun => hnone (hok.2 hrun)
    rw [closeEnter, if_neg hrun] at hsame ⊢
    exact hsame rfl rfl rfl rfl
  | wait => exact absurd (hs.idle.symm.trans (step_wait.mp h).1) (by simp)
  | resume => exact absurd (hs.idle.symm.trans (step_resume.mp h).1.1) (by simp)
  | closeReturn => exact absurd (hs.idle.symm.trans (step_closeReturn.mp h).1) (by simp)
  | external i =>
    obtain ⟨d, -, rfl⟩ := step_external.mp h
    exact hsame rfl rfl rfl rfl
  | _ => cases ha

/-! ### Runs -/

theorem historyInv_step (hs : HistoryInv as s) (hok : Undisturbed (as, s) a)
    (h : step C s a = some t) : HistoryInv (as ++ [a]) t := by
  have hinv := inv_step hs.inv (hs.orderly hok h) h
  have htold := hs.told.step h
  by_cases hexit : ∃ j, a = .exit j
  · obtain ⟨j, rfl⟩ := hexit
    refine ⟨hinv, htold, fun hnone => ?_, fun _ => hs.exit h⟩
    rw [exited_concat_exit] at hnone
    exact absurd hnone (List.append_ne_nil_of_right_ne_nil _ (List.cons_ne_nil j []))
  · have hexit' : ∀ j, a ≠ .exit j := fun j hj => hexit ⟨j, hj⟩
    have hexited := exited_concat as hexit'
    refine ⟨hinv, htold, fun hnone => ?_, fun hsome => ?_⟩
    · exact beforeExit_step hexit' (hs.before (hexited ▸ hnone)) h
    · rw [hexited] at hsome
      rcases hworker : a.worker? with _ | j
      · exact (hs.after hsome).control hsome hworker hok h
      · exact (hs.after hsome).worker hs.inv hworker hexit' h

/-- **An undisturbed run keeps order.** -/
theorem historyInv_of_reachWithin {d : σ}
    (h : (cellThread C d).recorded.ReachWithin Undisturbed (as, s)) : HistoryInv as s := by
  refine h.invariant (I := fun k => HistoryInv k.1 k.2) ?_ fun k a k' hk hok hstep => ?_
  · exact ⟨inv_init (C := C) d, ⟨fun j => by simp [Machine.recorded, cellThread], nofun⟩,
      fun _ => beforeExit_init (C := C) d, fun hnone => absurd rfl hnone⟩
  · obtain ⟨hstep, hlabels⟩ := Machine.recorded_step.mp hstep
    rw [hlabels]
    exact historyInv_step hk hok hstep

/-! ## Calls that are disturbed -/

/-- When a worker that has called `Exit` has not ended, the flag is down and it is alive. -/
theorem HistoryInv.not_allDone (hs : HistoryInv as s) (hended : ¬ ExitsEnded as) :
    s.isRun = false ∧ ¬ s.AllDone := by
  simp only [ExitsEnded, not_forall] at hended
  obtain ⟨j, hj, hnot⟩ := hended
  refine ⟨Bool.eq_false_iff.mpr fun hrun => ?_, fun hall => ?_⟩
  · exact hnot ((hs.after (List.ne_nil_of_mem hj)).running hrun j hj)
  · have hlt := hs.told.exited_lt j hj
    have hw := List.getElem?_eq_getElem hlt
    refine hall _ (List.mem_of_getElem? hw) ?_
    rw [hs.told.done, hw, Option.some.injEq] at hnot
    cases hworker : s.workers[j] <;> simp_all [Worker.Alive]

/-- After a step that is not orderly a `Close` goes on to return too early. -/
theorem exists_violation {s' t' : State σ ω δ} {b : Act ι} (d : σ) (horderly : ¬ Orderly s' b)
    {bs : List (Act ι)} (hbs : ∀ b ∈ bs, b = .wait ∨ b = .closeReturn)
    (hrun : (cellThread C d).run t bs = some t') (hstep : step C s' b = some t') :
    ∃ bs u, (∀ b ∈ bs, b = .wait ∨ b = .closeReturn) ∧ (cellThread C d).run t bs = some u ∧
      ¬ (u.Barrier ∧ u.Single) := by
  obtain ⟨u, rfl | hu, hbad⟩ := violation_of_not_orderly horderly hstep
  · exact ⟨bs, _, hbs, hrun, hbad⟩
  · have hreturn : (cellThread C d).step t' .closeReturn = some u := hu
    have hsnoc := Machine.run_snoc_eq_some.mpr ⟨t', hrun, hreturn⟩
    refine ⟨bs ++ [.closeReturn], u, fun b hb => ?_, hsnoc, hbad⟩
    rcases List.mem_append.mp hb with hb | hb
    · exact hbs b hb
    · exact .inr (List.mem_singleton.mp hb)

/-- **What is excluded goes wrong.**  Behind an undisturbed run, a disturbed `Start` spawns a
second worker, and a disturbed `Close` that finds a worker in front of the end of its `onDestory`
returns too early, at once or by its own next steps. -/
theorem violation_of_not_undisturbed (hs : HistoryInv as s) (hok : ¬ Undisturbed (as, s) a)
    (hafter : a = .close → ¬ s.AllAfter) (h : step C s a = some t) (d : σ) :
    ∃ bs u, (∀ b ∈ bs, b = .wait ∨ b = .closeReturn) ∧ (cellThread C d).run t bs = some u ∧
      ¬ (u.Barrier ∧ u.Single) := by
  cases a with
  | start =>
    obtain ⟨hrun, halive⟩ := hs.not_allDone hok
    have hnot : ¬ Orderly s (.start : Act ι) := fun horderly => halive (horderly hrun)
    exact exists_violation d hnot (List.forall_mem_nil _) rfl h
  | close =>
    have hfront := hafter rfl
    by_cases hrun : s.isRun = true
    · -- the `wakeup` that is left over lets this `Close` through
      obtain ⟨hidle, rfl⟩ := step_close.mp h
      have hended : ExitsEnded as := by
        by_contra hnot
        exact Bool.false_ne_true ((hs.not_allDone hnot).1.symm.trans hrun)
      have hsome : exited as ≠ [] := fun hnone => hok ⟨hended, fun _ => hnone⟩
      obtain ⟨j, hj⟩ := List.exists_mem_of_ne_nil _ hsome
      have hpos := (hs.after hsome).left_over j hj (hended j hj)
      have hblocks : s.sem.blocks = false := by
        rw [← Bool.not_eq_true, s.sem.blocks_iff]
        omega
      have hnot : ¬ Orderly (closeEnter s) (.wait : Act ι) := fun horderly => by
        rw [closeEnter, if_pos hrun] at horderly
        exact hfront (horderly hblocks)
      have hwait : step C (closeEnter s) .wait = some (closeWait (closeEnter s)) :=
        step_wait.mpr ⟨by rw [closeEnter, if_pos hrun], rfl⟩
      have hbs : ∀ b ∈ [(Act.wait : Act ι)], b = .wait ∨ b = .closeReturn := fun b hb =>
        .inl (List.mem_singleton.mp hb)
      exact exists_violation d hnot hbs
        (Machine.run_snoc_eq_some.mpr ⟨_, Machine.run_nil _ _, hwait⟩) hwait
    · have hstop := Bool.eq_false_iff.mpr hrun
      have hnot : ¬ Orderly s (.close : Act ι) := fun horderly => hfront (horderly hstop)
      exact exists_violation d hnot (List.forall_mem_nil _) rfl h
  | _ => exact absurd trivial hok

end CellThread
end EasyTcpServer
