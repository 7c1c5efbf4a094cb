import EasyTcpServer.Lib.Potential
import EasyTcpServer.Thread.QuietThread

/-!
# That `Close` returns

A `Close` that finds the flag up lowers it and waits for the `wakeup` of the worker.  Whether it
comes back is up to the callbacks: with the flag down, `onRun` must come to its end, and then
`onDestory`.  `Stops` says so by a rank of the places of a worker.

For callbacks that never call `Exit`, the steps of the `Close` and of the worker are then bounded
by a potential, which only the steps of other threads can raise (`potential_step`), and as long as
the `Close` is inside one of these steps is enabled (`exists_step`).
-/

namespace EasyTcpServer

universe u v w x

namespace CellThread

variable {σ : Type u} {ω : Type v} {δ : Type w} {ι : Type x}
variable {C : Callbacks σ ω δ ι} {s t : State σ ω δ} {a : Act ι}

/-! ## Somebody to wait for -/

/-- A `Close` that waits has somebody to wait for. -/
structure Awaited (s : State σ ω δ) : Prop where
  isRun : s.close ≠ .idle → s.isRun = false
  started : s.isRun = true ∨ s.close ≠ .idle → s.workers ≠ []
  alive : s.isRun = true ∨ s.close = .stopping → ¬ s.AllDone ∨ 0 < s.sem.wait
  blocked : s.close = .blocked → s.sem.wakeup = 0 → ¬ s.AllDone

theorem awaited_init (d : σ) : Awaited (cellThread C d).init := by
  refine ⟨fun hbusy => absurd rfl hbusy, fun hup => ?_, fun hup => ?_, fun hblocked => ?_⟩
  · rcases hup with hup | hbusy
    · cases hup
    · exact absurd rfl hbusy
  · rcases hup with hup | hstop
    · cases hup
    · cases hstop
  · cases hblocked

section Move

variable {j : ℕ} {w w' : Worker ω δ}

/-- Behind a move of a worker that is not its last, not all are done. -/
theorem WorkerMove.not_allDone_of_alive (h : WorkerMove C s t j w w') (halive : w'.Alive) :
    ¬ t.AllDone := by
  have hlt := (List.getElem?_eq_some_iff.mp h.worker).1
  intro hall
  refine hall w' ?_ halive
  rw [h.workers]
  exact List.mem_set hlt w'

theorem WorkerMove.awaited (h : WorkerMove C s t j w w') (hquiet : QuietInv s) (hs : Awaited s) :
    Awaited t := by
  have hrun : t.isRun = s.isRun := by
    rcases h.isRun with hsame | ⟨l, hexit, -⟩
    · exact hsame
    · exact absurd hexit (hquiet.no_exit w (List.mem_of_getElem? h.worker) l)
  have hstarted : t.workers ≠ [] := by
    have hlt := (List.getElem?_eq_some_iff.mp h.worker).1
    rw [← List.length_pos_iff, h.workers, List.length_set]
    omega
  rcases h.sem with ⟨-, halive⟩ | ⟨hsem, -⟩
  · have hnot := h.not_allDone_of_alive halive
    exact ⟨fun hclose => hrun.trans (hs.isRun (h.close ▸ hclose)), fun _ => hstarted,
      fun _ => .inl hnot, fun _ _ => hnot⟩
  · -- the last step of the worker is the signal
    refine ⟨fun hclose => hrun.trans (hs.isRun (h.close ▸ hclose)), fun _ => hstarted,
      fun hwaits => .inr ?_, fun hblocked hwakeup => ?_⟩
    · have hfree : s.close ≠ .blocked := by
        rcases hwaits with hup | hstop
        · intro hblocked
          have hdown := hs.isRun (by rw [hblocked]; decide)
          rw [hrun, hdown] at hup
          cases hup
        · rw [← h.close, hstop]
          decide
      have hwait := (hquiet.sem_free hfree).2
      rw [hsem, CellSemaphore.signal_wait]
      omega
    · rw [h.close] at hblocked
      rcases hquiet.sem_blocked hblocked with ⟨hwait, hzero⟩ | ⟨-, -, hall⟩
      · rw [hsem, CellSemaphore.signal_wakeup_of_neg (by omega)] at hwakeup
        omega
      · exact absurd hall h.not_allDone

end Move

/-- **A `Close` that waits has somebody to wait for**, after every step. -/
theorem awaited_step (hquiet : QuietInv s) (hs : Awaited s) (h : step C s a = some t) :
    Awaited t := by
  rcases hworker : a.worker? with _ | j
  · cases a with
    | start =>
      obtain ⟨hidle, rfl⟩ := step_start.mp h
      unfold start
      split_ifs with hrun
      · exact ⟨hs.isRun, hs.started, hs.alive, hs.blocked⟩
      · refine ⟨fun hclose => absurd hidle hclose, fun _ => ?_, fun _ => .inl fun hall => ?_,
          fun hblocked => ?_⟩
        · exact List.append_ne_nil_of_right_ne_nil _ (List.cons_ne_nil _ _)
        · exact hall .onCreate (List.mem_append_right _ (List.mem_singleton_self _)) trivial
        · exact absurd (hidle.symm.trans hblocked) (by decide)
    | close =>
      obtain ⟨hidle, rfl⟩ := step_close.mp h
      unfold closeEnter
      split_ifs with hrun
      · refine ⟨fun _ => rfl, fun _ => hs.started (.inl hrun), fun _ => hs.alive (.inl hrun),
          fun hblocked => ?_⟩
        cases hblocked
      · exact ⟨hs.isRun, hs.started, hs.alive, hs.blocked⟩
    | wait =>
      obtain ⟨hstop, rfl⟩ := step_wait.mp h
      have hbusy : s.close ≠ .idle := by
        rw [hstop]
        decide
      have hdown := hs.isRun hbusy
      refine ⟨fun _ => hdown, fun _ => hs.started (.inr hbusy), fun hwaits => ?_,
        fun hblocked _ => ?_⟩
      · rcases hwaits with hup | hstop'
        · exact absurd (hdown.symm.trans hup) (by decide)
        · unfold closeWait at hstop'
          split_ifs at hstop'
      · have hblocks : s.sem.blocks = true := by
          by_contra hnot
          simp [closeWait, hnot] at hblocked
        have hle := s.sem.blocks_iff.mp hblocks
        exact (hs.alive (.inr hstop)).resolve_right (by omega)
    | resume =>
      obtain ⟨⟨hblocked, -⟩, rfl⟩ := step_resume.mp h
      have hbusy : s.close ≠ .idle := by
        rw [hblocked]
        decide
      have hdown := hs.isRun hbusy
      refine ⟨fun _ => hdown, fun _ => hs.started (.inr hbusy), fun hwaits => ?_,
        fun hblocked => ?_⟩
      · rcases hwaits with hup | hstop
        · exact absurd (hdown.symm.trans hup) (by decide)
        · cases hstop
      · cases hblocked
    | closeReturn =>
      obtain ⟨hret, rfl⟩ := step_closeReturn.mp h
      have hbusy : s.close ≠ .idle := by
        rw [hret]
        decide
      have hdown := hs.isRun hbusy
      refine ⟨fun hclose => absurd rfl hclose, fun _ => hs.started (.inr hbusy), fun hwaits => ?_,
        fun hblocked => ?_⟩
      · rcases hwaits with hup | hstop
        · exact absurd (hdown.symm.trans hup) (by decide)
        · cases hstop
      · cases hblocked
    | external i =>
      obtain ⟨d, -, rfl⟩ := step_external.mp h
      exact ⟨hs.isRun, hs.started, hs.alive, hs.blocked⟩
    | _ => cases hworker
  · obtain ⟨w, w', hmove⟩ := workerMove hworker h
    exact hmove.awaited hquiet hs

/-! ## The potential -/

/-- With the flag down the worker comes to its end. -/
structure Stops (C : Callbacks σ ω δ ι) where
  /-- What holds of the data and the place of the worker throughout. -/
  Fits : σ → Worker ω δ → Prop
  /-- How much the worker has left to do. -/
  rank : σ → Worker ω δ → ℕ
  /-- How much of it is done by a step with this label. -/
  paid : ι → ℕ
  /-- How much another thread may add by a step with this label. -/
  gain : ι → ℕ
  fits_spawn : ∀ {d}, Fits d .done → Fits d .onCreate
  fits_create : ∀ {d}, Fits d .onCreate → Fits d (.onRun C.runStart)
  fits_run : ∀ {b d d' l i n}, Fits d (.onRun l) → C.onRun b d l i = some (d', n) →
    Fits d' (.ofRun C.destroyStart n)
  fits_destroy : ∀ {d d' l i o}, Fits d (.onDestory l) → C.onDestory d l i = some (d', o) →
    Fits d' (.ofDestory o)
  fits_wakeup : ∀ {d}, Fits d .wakeup → Fits d .done
  fits_external : ∀ {d d' w i}, Fits d w → C.external d i = some d' → Fits d' w
  rank_create : ∀ {d}, rank d (.onRun C.runStart) < rank d .onCreate
  rank_run : ∀ {d d' l i n}, Fits d (.onRun l) → C.onRun false d l i = some (d', n) →
    rank d' (.ofRun C.destroyStart n) + paid i ≤ rank d (.onRun l)
  rank_destroy : ∀ {d d' l i o}, Fits d (.onDestory l) → C.onDestory d l i = some (d', o) →
    rank d' (.ofDestory o) + paid i ≤ rank d (.onDestory l)
  rank_wakeup : ∀ {d}, rank d .done < rank d .wakeup
  rank_external : ∀ {d d' w i}, C.external d i = some d' → rank d' w ≤ rank d w + gain i
  exists_run : ∀ d l, ∃ i d' n, C.onRun false d l i = some (d', n) ∧ 0 < paid i
  exists_destroy : ∀ d l, ∃ i d' o, C.onDestory d l i = some (d', o) ∧ 0 < paid i

/-- How many steps a `Close` has left. -/
def ClosePhase.rank : ClosePhase → ℕ
  | .idle => 0
  | .returning => 1
  | .blocked => 2
  | .stopping => 3

theorem ClosePhase.rank_le (c : ClosePhase) : c.rank ≤ 3 := by
  cases c <;> decide

namespace Stops

variable (S : Stops C)

/-- What is left to do until the `Close` that is inside returns. -/
def potential (s : State σ ω δ) : ℕ := s.close.rank + S.rank s.data s.current

/-- What a step of the `Close` or of the worker does of it. -/
def paidBy : Act ι → ℕ
  | .wait | .resume | .closeReturn | .create _ | .wakeup _ => 1
  | .run _ i | .destroy _ i => S.paid i
  | _ => 0

/-- What a step of another thread adds. -/
def addedBy : Act ι → ℕ
  | .external i => S.gain i
  | _ => 0

/-- What holds throughout. -/
structure Good (s : State σ ω δ) : Prop where
  quiet : QuietInv s
  awaited : Awaited s
  fits : S.Fits s.data s.current

variable {S}

theorem good_step (hfree : C.ExitFree) (hs : S.Good s) (h : step C s a = some t) : S.Good t := by
  refine ⟨quietInv_step hfree hs.quiet h, awaited_step hs.quiet hs.awaited h, ?_⟩
  have hfits := hs.fits
  cases currentStep hs.quiet h with
  | control hworkers hdata => rwa [hdata, current_congr hworkers]
  | close hworkers hdata => rwa [hdata, current_congr hworkers]
  | external hworkers hext =>
    rw [current_congr hworkers]
    exact S.fits_external hfits hext
  | spawn hcur ht hdata =>
    rw [ht, hdata]
    exact S.fits_spawn (hcur ▸ hfits)
  | move _ _ _ _ hcases =>
    rcases hcases with ⟨hcur, ht, hdata⟩ | ⟨i, l, n, hcur, hrun, ht⟩ |
      ⟨i, l, o, hcur, hdestroy, ht⟩ | ⟨hcur, ht, hdata⟩
    · rw [ht, hdata]
      exact S.fits_create (hcur ▸ hfits)
    · rw [ht]
      exact S.fits_run (hcur ▸ hfits) hrun
    · rw [ht]
      exact S.fits_destroy (hcur ▸ hfits) hdestroy
    · rw [ht, hdata]
      exact S.fits_wakeup (hcur ▸ hfits)

/-- A step of a thread other than the worker. -/
theorem potential_control (hworkers : t.workers = s.workers) :
    S.potential t = t.close.rank + S.rank t.data s.current := by
  rw [potential, current_congr hworkers]

/-- A step of the worker. -/
theorem potential_move {j : ℕ} {w w' : Worker ω δ} (hs : S.Good s) (h : WorkerMove C s t j w w') :
    s.current = w ∧ S.potential t = s.close.rank + S.rank t.data w' := by
  obtain ⟨hfrom, hto⟩ := h.current hs.quiet.single
  exact ⟨hfrom, by rw [potential, h.close, hto]⟩

/-- **While a `Close` is inside, only other threads raise the potential.** -/
theorem potential_step (hs : S.Good s) (hbusy : s.close ≠ .idle) (h : step C s a = some t) :
    S.potential t + S.paidBy a ≤ S.potential s + S.addedBy a := by
  have hdown := hs.awaited.isRun hbusy
  have hfits := hs.fits
  cases a with
  | start => exact absurd (step_start.mp h).1 hbusy
  | close => exact absurd (step_close.mp h).1 hbusy
  | wait =>
    obtain ⟨hstop, rfl⟩ := step_wait.mp h
    have hpot : S.potential (closeWait s) = _ := potential_control (s := s) rfl
    have hrank : (closeWait s).close.rank ≤ 2 := by
      show ClosePhase.rank (if s.sem.blocks then .blocked else .returning) ≤ 2
      cases s.sem.blocks <;> decide
    rw [hpot, potential, hstop]
    show _ + S.rank s.data _ + 1 ≤ 3 + _ + 0
    omega
  | resume =>
    obtain ⟨⟨hblocked, -⟩, ht⟩ := step_resume.mp h
    rw [potential_control (s := s) (by rw [ht]), potential, hblocked, ht]
    show 1 + S.rank s.data _ + 1 ≤ 2 + _ + 0
    omega
  | closeReturn =>
    obtain ⟨hret, ht⟩ := step_closeReturn.mp h
    rw [potential_control (s := s) (by rw [ht]), potential, hret, ht]
    show 0 + S.rank s.data _ + 1 ≤ 1 + _ + 0
    omega
  | external i =>
    obtain ⟨d, hd, ht⟩ := step_external.mp h
    have hrank := S.rank_external (w := s.current) hd
    rw [potential_control (s := s) (by rw [ht]), potential, ht]
    show s.close.rank + S.rank d _ + 0 ≤ _ + S.gain i
    omega
  | create j =>
    obtain ⟨hw, rfl⟩ := step_create.mp h
    obtain ⟨hcur, hpot⟩ := potential_move hs (move_create (C := C) hw)
    have hrank := S.rank_create (d := s.data)
    rw [hpot, potential, hcur]
    show _ + S.rank s.data _ + 1 ≤ _ + 0
    omega
  | run j i =>
    obtain ⟨l, d, n, hw, hrun, rfl⟩ := step_run.mp h
    obtain ⟨hcur, hpot⟩ := potential_move hs (move_run hw hrun)
    rw [hdown] at hrun
    have hrank := S.rank_run (hcur ▸ hfits) hrun
    rw [hpot, potential, hcur]
    show _ + S.rank d _ + S.paid i ≤ _ + 0
    omega
  | exit j =>
    obtain ⟨l, hw, -⟩ := step_exit.mp h
    exact absurd rfl (hs.quiet.no_exit _ (List.mem_of_getElem? hw) l)
  | destroy j i =>
    obtain ⟨l, d, o, hw, hdestroy, rfl⟩ := step_destroy.mp h
    obtain ⟨hcur, hpot⟩ := potential_move hs (move_destroy (C := C) hw d o)
    have hrank := S.rank_destroy (hcur ▸ hfits) hdestroy
    rw [hpot, potential, hcur]
    show _ + S.rank d _ + S.paid i ≤ _ + 0
    omega
  | wakeup j =>
    obtain ⟨hw, rfl⟩ := step_wakeup.mp h
    obtain ⟨hcur, hpot⟩ := potential_move hs (move_wakeup (C := C) hw)
    have hrank := S.rank_wakeup (d := s.data)
    rw [hpot, potential, hcur]
    show _ + S.rank s.data _ + 1 ≤ _ + 0
    omega

variable (S) in
/-- A worker that is alive has a step, and the step pays. -/
theorem exists_workerStep {j : ℕ} {w : Worker ω δ} (hw : s.workers[j]? = some w) (halive : w.Alive)
    (hexit : ∀ l, w ≠ .exiting l) (hdown : s.isRun = false) :
    ∃ a t, step C s a = some t ∧ 0 < S.paidBy a ∧ S.addedBy a = 0 := by
  cases w with
  | onCreate => exact ⟨.create j, _, step_create.mpr ⟨hw, rfl⟩, Nat.one_pos, rfl⟩
  | onRun l =>
    obtain ⟨i, d, n, hrun, hpaid⟩ := S.exists_run s.data l
    rw [← hdown] at hrun
    exact ⟨.run j i, _, step_run.mpr ⟨l, d, n, hw, hrun, rfl⟩, hpaid, rfl⟩
  | exiting l => exact absurd rfl (hexit l)
  | onDestory l =>
    obtain ⟨i, d, o, hdestroy, hpaid⟩ := S.exists_destroy s.data l
    exact ⟨.destroy j i, _, step_destroy.mpr ⟨l, d, o, hw, hdestroy, rfl⟩, hpaid, rfl⟩
  | wakeup => exact ⟨.wakeup j, _, step_wakeup.mpr ⟨hw, rfl⟩, Nat.one_pos, rfl⟩
  | done => exact absurd halive not_false

/-- **While a `Close` is inside, it or the worker can go on.** -/
theorem exists_step (hs : S.Good s) (hbusy : s.close ≠ .idle) :
    ∃ a t, step C s a = some t ∧ 0 < S.paidBy a ∧ S.addedBy a = 0 := by
  have hdown := hs.awaited.isRun hbusy
  cases hclose : s.close with
  | idle => exact absurd hclose hbusy
  | stopping => exact ⟨.wait, _, step_wait.mpr ⟨hclose, rfl⟩, Nat.one_pos, rfl⟩
  | returning => exact ⟨.closeReturn, _, step_closeReturn.mpr ⟨hclose, rfl⟩, Nat.one_pos, rfl⟩
  | blocked =>
    by_cases hmay : s.sem.mayResume = true
    · exact ⟨.resume, _, step_resume.mpr ⟨⟨hclose, hmay⟩, rfl⟩, Nat.one_pos, rfl⟩
    · rw [s.sem.mayResume_iff] at hmay
      have hzero : s.sem.wakeup = 0 := by
        rcases hs.quiet.sem_blocked hclose with ⟨-, hzero⟩ | ⟨-, hone, -⟩ <;> omega
      have hnot := hs.awaited.blocked hclose hzero
      simp only [State.AllDone, not_forall, not_not] at hnot
      obtain ⟨w, hw, halive⟩ := hnot
      obtain ⟨j, hj⟩ := List.mem_iff_getElem?.mp hw
      exact S.exists_workerStep hj halive (hs.quiet.no_exit w hw) hdown

end Stops
end CellThread
end EasyTcpServer
