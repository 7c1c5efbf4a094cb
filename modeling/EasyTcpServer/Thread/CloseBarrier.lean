import EasyTcpServer.Thread.CellThread

/-!
# What a caller of `Close` relies on

`Close` is to return when the worker is behind its `onDestory`, and there is to be one worker
at a time.  Neither is so in every run: once a worker has called `Exit`, the flag is down
while it still runs, and its `wakeup` may be left in the semaphore for a later `Close`.

* `Barrier` and `Single` are the two properties, and `Orderly` is the condition on a step
  under which they stay: `inv_step`.
* `violation_of_not_orderly`: after a step that is not orderly, one of the two fails at
  once or when the `Close` returns.
-/

namespace EasyTcpServer

universe u v w x

namespace CellThread

variable {σ : Type u} {ω : Type v} {δ : Type w} {ι : Type x}
variable {C : Callbacks σ ω δ ι} {s t : State σ ω δ}

/-! ## What a caller of `Close` relies on -/

namespace State

/-- Every worker is behind the end of its `onDestory`. -/
def AllAfter (s : State σ ω δ) : Prop := ∀ w ∈ s.workers, w.AfterDestory

/-- No worker has anything left to do. -/
def AllDone (s : State σ ω δ) : Prop := ∀ w ∈ s.workers, ¬ w.Alive

/-- When a `Close` has just returned, no worker is in front of the end of its `onDestory`. -/
def Barrier (s : State σ ω δ) : Prop := s.closeReturned = true → s.AllAfter

/-- At most one worker is alive. -/
def Single (s : State σ ω δ) : Prop :=
  ∀ ⦃i j : ℕ⦄ ⦃v w : Worker ω δ⦄,
    s.workers[i]? = some v → s.workers[j]? = some w → v.Alive → w.Alive → i = j

instance (s : State σ ω δ) : Decidable s.AllAfter := by unfold AllAfter; infer_instance

instance (s : State σ ω δ) : Decidable s.AllDone := by unfold AllDone; infer_instance

instance (s : State σ ω δ) : Decidable s.Barrier := by unfold Barrier; infer_instance

theorem AllDone.allAfter (h : s.AllDone) : s.AllAfter := fun w hw =>
  .of_not_alive (h w hw)

end State

/-- The steps of `Start` and `Close` that keep order: `Start` spawns no second worker next
to one that is alive, and no `Close` goes past a worker in front of the end of its
`onDestory`, neither because it finds `_isRun` down nor because the semaphore holds a
`wakeup` from before. -/
def Orderly (s : State σ ω δ) : Act ι → Prop
  | .start => s.isRun = false → s.AllDone
  | .close => s.isRun = false → s.AllAfter
  | .wait => s.sem.blocks = false → s.AllAfter
  | _ => True

instance (s : State σ ω δ) (a : Act ι) : Decidable (Orderly s a) := by
  cases a <;> unfold Orderly <;> infer_instance

/-- What holds throughout an orderly run. -/
structure Inv (s : State σ ω δ) : Prop where
  single : s.Single
  /-- Nobody waits: no permission is out, and what `_wait` holds is left over. -/
  sem_free : s.close ≠ .blocked → s.sem.wakeup = 0 ∧ 0 ≤ s.sem.wait
  /-- A `Close` waits: either the worker is still to signal, or all is done. -/
  sem_blocked : s.close = .blocked →
    s.sem.wait = -1 ∧ s.sem.wakeup = 0 ∨ s.sem.wait = 0 ∧ s.sem.wakeup = 1 ∧ s.AllDone
  returning : s.close = .returning → s.AllAfter
  returned : s.Barrier

/-! ### Moves of workers -/

section Move

variable {j : ℕ} {w w' : Worker ω δ}

theorem WorkerMove.allAfter (h : WorkerMove C s t j w w') (hs : s.AllAfter) : t.AllAfter := by
  intro v hv
  rw [h.workers] at hv
  rcases List.mem_or_eq_of_mem_set hv with hv | rfl
  · exact hs v hv
  · exact h.afterDestory (hs w (List.mem_of_getElem? h.worker))

/-- A worker that is alive after the move was alive before. -/
theorem WorkerMove.alive_of_alive (h : WorkerMove C s t j w w') {i : ℕ} {v : Worker ω δ}
    (hv : t.workers[i]? = some v) (halive : v.Alive) :
    ∃ v', s.workers[i]? = some v' ∧ v'.Alive := by
  rw [h.workers, List.getElem?_set] at hv
  split_ifs at hv with hij
  · subst hij
    exact ⟨w, h.worker, h.alive⟩
  · exact ⟨v, hv, halive⟩

theorem WorkerMove.single (h : WorkerMove C s t j w w') (hs : s.Single) : t.Single := by
  intro i k v v' hv hv' halive halive'
  obtain ⟨u, hu, hu_alive⟩ := h.alive_of_alive hv halive
  obtain ⟨u', hu', hu'_alive⟩ := h.alive_of_alive hv' halive'
  exact hs hu hu' hu_alive hu'_alive

/-- When the only worker that is alive ends, all are done. -/
theorem WorkerMove.allDone (h : WorkerMove C s t j w .done) (hs : s.Single) : t.AllDone := by
  intro v hv halive
  rw [h.workers] at hv
  obtain ⟨i, hi⟩ := List.mem_iff_getElem?.mp hv
  rw [List.getElem?_set] at hi
  split_ifs at hi with hij
  · obtain rfl : Worker.done = v := Option.some.inj hi
    exact halive
  · exact hij (hs h.worker hi h.alive halive)

/-- **A move of a worker keeps the invariant.** -/
theorem WorkerMove.inv (h : WorkerMove C s t j w w') (hs : Inv s) : Inv t := by
  have hnot : ¬ s.AllDone := fun hall => hall w (List.mem_of_getElem? h.worker) h.alive
  refine ⟨h.single hs.single, fun hfree => ?_, fun hblocked => ?_, fun hret => ?_, fun hret => ?_⟩
  · rw [h.close] at hfree
    obtain ⟨hwakeup, hwait⟩ := hs.sem_free hfree
    rcases h.sem with ⟨hsem, -⟩ | ⟨hsem, -⟩
    · rw [hsem]
      exact ⟨hwakeup, hwait⟩
    · rw [hsem, CellSemaphore.signal_wakeup_of_nonneg hwait, CellSemaphore.signal_wait]
      exact ⟨hwakeup, by omega⟩
  · rw [h.close] at hblocked
    rcases hs.sem_blocked hblocked with ⟨hwait, hwakeup⟩ | ⟨-, -, hall⟩
    · rcases h.sem with ⟨hsem, -⟩ | ⟨hsem, hdone⟩
      · rw [hsem]
        exact .inl ⟨hwait, hwakeup⟩
      · -- the worker that `Close` waits for
        subst hdone
        rw [hsem, CellSemaphore.signal_wait, CellSemaphore.signal_wakeup_of_neg (by omega)]
        exact .inr ⟨by omega, by omega, h.allDone hs.single⟩
    · exact absurd hall hnot
  · rw [h.close] at hret
    exact h.allAfter (hs.returning hret)
  · rw [h.closeReturned] at hret
    cases hret

end Move

/-! ### Steps of control threads -/

theorem inv_start (hs : Inv s) (hidle : s.close = .idle)
    (horderly : s.isRun = false → s.AllDone) : Inv (start s) := by
  have hbusy : s.close ≠ .blocked := by simp [hidle]
  unfold start
  split_ifs with hrun
  · exact ⟨hs.single, hs.sem_free, hs.sem_blocked, hs.returning, nofun⟩
  have hdone := horderly (Bool.eq_false_iff.mpr hrun)
  refine ⟨?_, fun _ => hs.sem_free hbusy, fun h => absurd h hbusy, fun h => ?_, nofun⟩
  · -- the new worker is the only one that is alive
    have hlast : ∀ {i : ℕ} {v : Worker ω δ}, (s.workers ++ [.onCreate])[i]? = some v → v.Alive →
        i = s.workers.length := by
      intro i v hv halive
      rw [List.getElem?_append] at hv
      split_ifs at hv with hlt
      · exact absurd halive (hdone v (List.mem_of_getElem? hv))
      · have := (List.getElem?_eq_some_iff.mp hv).1
        rw [List.length_singleton] at this
        omega
    intro i j v w hv hw hv_alive hw_alive
    rw [hlast hv hv_alive, hlast hw hw_alive]
  · exact absurd (hidle.symm.trans h) (by simp)

theorem inv_closeEnter (hs : Inv s) (hidle : s.close = .idle)
    (horderly : s.isRun = false → s.AllAfter) : Inv (closeEnter s) := by
  have hbusy : s.close ≠ .blocked := by simp [hidle]
  unfold closeEnter
  split_ifs with hrun
  · exact ⟨hs.single, fun _ => hs.sem_free hbusy, nofun, nofun, nofun⟩
  · exact ⟨hs.single, hs.sem_free, hs.sem_blocked, hs.returning,
      fun _ => horderly (Bool.eq_false_iff.mpr hrun)⟩

theorem inv_closeWait (hs : Inv s) (hstop : s.close = .stopping)
    (horderly : s.sem.blocks = false → s.AllAfter) : Inv (closeWait s) := by
  obtain ⟨hwakeup, hwait⟩ := hs.sem_free (by simp [hstop])
  unfold closeWait
  cases hblocks : s.sem.blocks with
  | true =>
    have hle := s.sem.blocks_iff.mp hblocks
    refine ⟨hs.single, fun h => absurd rfl h, fun _ => .inl ⟨?_, hwakeup⟩, nofun, nofun⟩
    show s.sem.wait - 1 = -1
    omega
  | false =>
    have hlt : ¬ s.sem.wait ≤ 0 := by
      rw [← s.sem.blocks_iff, hblocks]
      exact Bool.false_ne_true
    refine ⟨hs.single, fun _ => ⟨hwakeup, ?_⟩, nofun, fun _ => horderly hblocks, nofun⟩
    show 0 ≤ s.sem.wait - 1
    omega

theorem inv_resume (hs : Inv s) (hblocked : s.close = .blocked) (hmay : s.sem.mayResume = true) :
    Inv { s with close := .returning, sem := s.sem.resume, closeReturned := false } := by
  have hpos := s.sem.mayResume_iff.mp hmay
  rcases hs.sem_blocked hblocked with ⟨-, hwakeup⟩ | ⟨hwait, hwakeup, hall⟩
  · omega
  · refine ⟨hs.single, fun _ => ⟨?_, le_of_eq hwait.symm⟩, nofun, fun _ => hall.allAfter, nofun⟩
    show s.sem.wakeup - 1 = 0
    omega

theorem inv_closeReturn (hs : Inv s) (hret : s.close = .returning) :
    Inv { s with close := .idle, closeReturned := true } :=
  ⟨hs.single, fun _ => hs.sem_free (by simp [hret]), nofun, nofun, fun _ => hs.returning hret⟩

/-- **An orderly step keeps the invariant.** -/
theorem inv_step {a : Act ι} (hs : Inv s) (horderly : Orderly s a) (h : step C s a = some t) :
    Inv t := by
  rcases hworker : a.worker? with _ | j
  · cases a with
    | start =>
      obtain ⟨hidle, rfl⟩ := step_start.mp h
      exact inv_start hs hidle horderly
    | close =>
      obtain ⟨hidle, rfl⟩ := step_close.mp h
      exact inv_closeEnter hs hidle horderly
    | wait =>
      obtain ⟨hstop, rfl⟩ := step_wait.mp h
      exact inv_closeWait hs hstop horderly
    | resume =>
      obtain ⟨⟨hblocked, hmay⟩, rfl⟩ := step_resume.mp h
      exact inv_resume hs hblocked hmay
    | closeReturn =>
      obtain ⟨hret, rfl⟩ := step_closeReturn.mp h
      exact inv_closeReturn hs hret
    | external i =>
      obtain ⟨d, -, rfl⟩ := step_external.mp h
      exact ⟨hs.single, hs.sem_free, hs.sem_blocked, hs.returning, fun hret => (by cases hret)⟩
    | _ => cases hworker
  · obtain ⟨w, w', hmove⟩ := workerMove hworker h
    exact hmove.inv hs

theorem inv_init (d : σ) : Inv (cellThread C d).init :=
  ⟨nofun, fun _ => ⟨rfl, le_refl _⟩, nofun, nofun, nofun⟩

/-! ## Steps that are not orderly -/

/-- **What is excluded goes wrong.**  After a step that is not orderly, two workers are
alive, or a `Close` has returned too early, or it is about to. -/
theorem violation_of_not_orderly {a : Act ι} (horderly : ¬ Orderly s a)
    (h : step C s a = some t) :
    ∃ u, (u = t ∨ step C t .closeReturn = some u) ∧ ¬ (u.Barrier ∧ u.Single) := by
  cases a with
  | start =>
    obtain ⟨-, rfl⟩ := step_start.mp h
    simp only [Orderly, State.AllDone, not_forall, not_not] at horderly
    obtain ⟨hrun, w, hw, halive⟩ := horderly
    refine ⟨_, .inl rfl, fun hgood => ?_⟩
    obtain ⟨i, hi⟩ := List.mem_iff_getElem?.mp hw
    have hlt : i < s.workers.length := (List.getElem?_eq_some_iff.mp hi).1
    have hworkers : (start s).workers = s.workers ++ [.onCreate] := by simp [start, hrun]
    have hold : (start s).workers[i]? = some w := by
      rw [hworkers, List.getElem?_append_left hlt, hi]
    have hnew : (start s).workers[s.workers.length]? = some .onCreate := by
      rw [hworkers, List.getElem?_concat_length]
    exact absurd (hgood.2 hold hnew halive trivial) (Nat.ne_of_lt hlt)
  | close =>
    obtain ⟨-, rfl⟩ := step_close.mp h
    simp only [Orderly, not_forall] at horderly
    obtain ⟨hrun, hafter⟩ := horderly
    refine ⟨_, .inl rfl, fun hgood => hafter ?_⟩
    have hreturned : closeEnter s = { s with closeReturned := true, atClose := s.data } := by
      simp [closeEnter, hrun]
    rw [hreturned] at hgood
    exact hgood.1 rfl
  | wait =>
    obtain ⟨-, rfl⟩ := step_wait.mp h
    simp only [Orderly, not_forall] at horderly
    obtain ⟨hblocks, hafter⟩ := horderly
    refine ⟨{ closeWait s with close := .idle, closeReturned := true }, .inr ?_,
      fun hgood => hafter (hgood.1 rfl)⟩
    exact step_closeReturn.mpr ⟨by simp [closeWait, hblocks], rfl⟩
  | _ => exact absurd trivial horderly

end CellThread
end EasyTcpServer
