import EasyTcpServer.Thread.CloseBarrier

/-!
# Threads that do not call `Exit`

As long as no worker has the mutex in `Exit`, every run of a `Cell_Thread` keeps order,
whatever is called when (`beforeExit_step`).  `QuietInv` is the same for callbacks that never
call `Exit`.  At most one worker is alive then, and where that worker is tells
all there is to tell about the workers.  `CurrentStep` says what a step is in these terms, so
that what is proved of such a thread need not speak of the list of workers.
-/

namespace EasyTcpServer

universe u v w x

namespace CellThread

variable {σ : Type u} {ω : Type v} {δ : Type w} {ι : Type x}
variable {C : Callbacks σ ω δ ι} {s t : State σ ω δ}

/-! ## The current worker -/

namespace State

/-- The worker that is alive, or the mark of one that is done. -/
def current (s : State σ ω δ) : Worker ω δ := (s.workers.find? fun w => w.Alive).getD .done

theorem AllDone.current (h : s.AllDone) : s.current = .done := by
  have hnone : s.workers.find? (fun w => decide w.Alive) = none := by
    rw [List.find?_eq_none]
    intro w hw
    simpa using h w hw
  rw [State.current, hnone]
  rfl

theorem Single.current (h : s.Single) {j : ℕ} {w : Worker ω δ} (hw : s.workers[j]? = some w)
    (halive : w.Alive) : s.current = w := by
  rcases hfind : s.workers.find? (fun w => decide w.Alive) with _ | v
  · rw [List.find?_eq_none] at hfind
    exact absurd (decide_eq_true halive) (hfind w (List.mem_of_getElem? hw))
  · have hfound := List.find?_some hfind
    have hv_alive : v.Alive := of_decide_eq_true hfound
    obtain ⟨i, hi⟩ := List.mem_iff_getElem?.mp (List.mem_of_find?_eq_some hfind)
    obtain rfl : i = j := h hi hw hv_alive halive
    rw [State.current, hfind]
    exact Option.some.inj (hi.symm.trans hw)

end State

/-- A move is a move of the current worker. -/
theorem WorkerMove.current {j : ℕ} {w w' : Worker ω δ} (h : WorkerMove C s t j w w')
    (hs : s.Single) : s.current = w ∧ t.current = w' := by
  refine ⟨hs.current h.worker h.alive, ?_⟩
  have hlt := (List.getElem?_eq_some_iff.mp h.worker).1
  have hw' : t.workers[j]? = some w' := by
    rw [h.workers, List.getElem?_set_self hlt]
  rcases h.sem with ⟨-, halive⟩ | ⟨-, rfl⟩
  · exact (h.single hs).current hw' halive
  · exact (h.allDone hs).current

/-! ## Before the first `Exit` -/

/-- What holds as long as no worker has got the mutex in `Exit`: outside the span from
`Start` to the end of the `Close` that follows, nothing is alive and nothing is left in the
semaphore. -/
structure BeforeExit (s : State σ ω δ) : Prop extends Inv s where
  stopped : s.close = .idle → s.isRun = false → s.AllDone ∧ s.sem.wait = 0
  left_over : 0 < s.sem.wait → s.AllDone ∧ s.sem.wait = 1
  closing : s.close = .returning → s.AllDone ∧ s.sem.wait = 0

theorem BeforeExit.orderly (h : BeforeExit s) {a : Act ι} (hstep : step C s a = some t) :
    Orderly s a := by
  cases a with
  | start => exact fun hrun => (h.stopped (step_start.mp hstep).1 hrun).1
  | close => exact fun hrun => (h.stopped (step_close.mp hstep).1 hrun).1.allAfter
  | wait =>
    intro hblocks
    refine (h.left_over (not_le.mp fun hle => ?_)).1.allAfter
    rw [s.sem.blocks_iff.mpr hle] at hblocks
    cases hblocks
  | _ => exact trivial

section Move

variable {j : ℕ} {w w' : Worker ω δ}

theorem WorkerMove.not_allDone (h : WorkerMove C s t j w w') : ¬ s.AllDone := fun hall =>
  hall w (List.mem_of_getElem? h.worker) h.alive

/-- A move that leaves `_isRun` as it is keeps what holds before an `Exit`. -/
theorem WorkerMove.beforeExit (h : WorkerMove C s t j w w') (hrun : t.isRun = s.isRun)
    (hs : BeforeExit s) : BeforeExit t := by
  have hwait : s.sem.wait ≤ 0 := not_lt.mp fun hpos => h.not_allDone (hs.left_over hpos).1
  refine ⟨h.inv hs.toInv, fun hidle hstop => ?_, fun hpos => ?_, fun hret => ?_⟩
  · rw [h.close] at hidle
    rw [hrun] at hstop
    exact absurd (hs.stopped hidle hstop).1 h.not_allDone
  · rcases h.sem with ⟨hsem, -⟩ | ⟨hsem, hdone⟩
    · rw [hsem] at hpos
      omega
    · subst hdone
      rw [hsem, CellSemaphore.signal_wait] at hpos ⊢
      exact ⟨h.allDone hs.single, by omega⟩
  · rw [h.close] at hret
    exact absurd (hs.closing hret).1 h.not_allDone

end Move

/-- Only a worker that has the mutex in `Exit` lowers `_isRun`. -/
theorem isRun_of_worker {a : Act ι} {j : ℕ} (ha : a.worker? = some j)
    (hexit : ∀ k, a ≠ .exit k) (h : step C s a = some t) : t.isRun = s.isRun := by
  cases a with
  | create k =>
    obtain ⟨-, rfl⟩ := step_create.mp h
    rfl
  | run k i =>
    obtain ⟨_, _, _, -, -, rfl⟩ := step_run.mp h
    rfl
  | exit k => exact absurd rfl (hexit k)
  | destroy k i =>
    obtain ⟨_, _, _, -, -, rfl⟩ := step_destroy.mp h
    rfl
  | wakeup k =>
    obtain ⟨-, rfl⟩ := step_wakeup.mp h
    rfl
  | _ => cases ha

theorem beforeExit_step {a : Act ι} (hexit : ∀ j, a ≠ .exit j) (hs : BeforeExit s)
    (h : step C s a = some t) : BeforeExit t := by
  have hinv := inv_step hs.toInv (hs.orderly h) h
  rcases hworker : a.worker? with _ | j
  · cases a with
    | start =>
      obtain ⟨hidle, rfl⟩ := step_start.mp h
      by_cases hrun : s.isRun = true
      · rw [start, if_pos hrun] at hinv ⊢
        exact ⟨hinv, hs.stopped, hs.left_over, hs.closing⟩
      · have hstop := hs.stopped hidle (Bool.eq_false_iff.mpr hrun)
        rw [start, if_neg hrun] at hinv ⊢
        refine ⟨hinv, fun _ hstop => (by cases hstop), fun hpos => ?_, fun hret => ?_⟩
        · have hpos' : 0 < s.sem.wait := hpos
          omega
        · exact absurd (hidle.symm.trans hret) (by simp)
    | close =>
      obtain ⟨hidle, rfl⟩ := step_close.mp h
      by_cases hrun : s.isRun = true
      · rw [closeEnter, if_pos hrun] at hinv ⊢
        exact ⟨hinv, fun hidle => (by cases hidle), hs.left_over, fun hret => (by cases hret)⟩
      · rw [closeEnter, if_neg hrun] at hinv ⊢
        exact ⟨hinv, hs.stopped, hs.left_over, hs.closing⟩
    | wait =>
      obtain ⟨hstop, rfl⟩ := step_wait.mp h
      cases hblocks : s.sem.blocks with
      | true =>
        have hle := s.sem.blocks_iff.mp hblocks
        rw [closeWait, hblocks] at hinv ⊢
        refine ⟨hinv, fun hidle => (by cases hidle), fun hpos => ?_, fun hret => (by cases hret)⟩
        have hpos' : 0 < s.sem.wait - 1 := hpos
        omega
      | false =>
        have hpos : 0 < s.sem.wait := by
          rw [← not_le, ← s.sem.blocks_iff, hblocks]
          exact Bool.false_ne_true
        obtain ⟨hall, hone⟩ := hs.left_over hpos
        rw [closeWait, hblocks] at hinv ⊢
        refine ⟨hinv, fun hidle => (by cases hidle), fun hpos' => ?_, fun _ => ⟨hall, ?_⟩⟩
        · have : 0 < s.sem.wait - 1 := hpos'
          omega
        · show s.sem.wait - 1 = 0
          omega
    | resume =>
      obtain ⟨⟨hblocked, hmay⟩, rfl⟩ := step_resume.mp h
      have hpos := s.sem.mayResume_iff.mp hmay
      rcases hs.sem_blocked hblocked with ⟨-, hwakeup⟩ | ⟨hwait, -, hall⟩
      · omega
      · exact ⟨hinv, fun hidle => (by cases hidle), hs.left_over, fun _ => ⟨hall, hwait⟩⟩
    | closeReturn =>
      obtain ⟨hret, rfl⟩ := step_closeReturn.mp h
      exact ⟨hinv, fun _ _ => hs.closing hret, hs.left_over, fun hret => (by cases hret)⟩
    | external i =>
      obtain ⟨d, -, rfl⟩ := step_external.mp h
      exact ⟨hinv, hs.stopped, hs.left_over, hs.closing⟩
    | _ => cases hworker
  · obtain ⟨w, w', hmove⟩ := workerMove hworker h
    exact hmove.beforeExit (isRun_of_worker hworker hexit h) hs

theorem beforeExit_init (d : σ) : BeforeExit (cellThread C d).init :=
  ⟨inv_init (C := C) d, fun _ _ => ⟨nofun, rfl⟩, fun h => absurd h (lt_irrefl 0), nofun⟩

/-! ## Callbacks that do not call `Exit` -/

/-- What holds throughout a run when `onRun` never calls `Exit`. -/
structure QuietInv (s : State σ ω δ) : Prop extends BeforeExit s where
  no_exit : ∀ w ∈ s.workers, ∀ l, w ≠ .exiting l

theorem QuietInv.ne_exit (h : QuietInv s) {a : Act ι} (hstep : step C s a = some t) (j : ℕ) :
    a ≠ .exit j := by
  rintro rfl
  obtain ⟨l, hw, -⟩ := step_exit.mp hstep
  exact h.no_exit _ (List.mem_of_getElem? hw) l rfl

/-- A `Start` spawns a worker in front of its `onCreate`; no other control thread does. -/
theorem workers_of_control {a : Act ι} (ha : a.worker? = none) (h : step C s a = some t) :
    t.workers = s.workers ∨ t.workers = s.workers ++ [.onCreate] := by
  cases a with
  | start =>
    obtain ⟨-, rfl⟩ := step_start.mp h
    unfold start
    split_ifs
    · exact .inl rfl
    · exact .inr rfl
  | close =>
    obtain ⟨-, rfl⟩ := step_close.mp h
    unfold closeEnter
    split_ifs <;> exact .inl rfl
  | wait =>
    obtain ⟨-, rfl⟩ := step_wait.mp h
    exact .inl rfl
  | resume =>
    obtain ⟨-, rfl⟩ := step_resume.mp h
    exact .inl rfl
  | closeReturn =>
    obtain ⟨-, rfl⟩ := step_closeReturn.mp h
    exact .inl rfl
  | external i =>
    obtain ⟨d, -, rfl⟩ := step_external.mp h
    exact .inl rfl
  | _ => cases ha

theorem quietInv_step (hfree : C.ExitFree) {a : Act ι} (hs : QuietInv s)
    (h : step C s a = some t) : QuietInv t := by
  refine ⟨beforeExit_step (hs.ne_exit h) hs.toBeforeExit h, fun v hv l => ?_⟩
  rcases hworker : a.worker? with _ | j
  · rcases workers_of_control hworker h with hsame | hnew
    · exact hs.no_exit v (hsame ▸ hv) l
    · rw [hnew] at hv
      rcases List.mem_append.mp hv with hv | hv
      · exact hs.no_exit v hv l
      · rw [List.mem_singleton.mp hv]
        exact fun hexit => by cases hexit
  · obtain ⟨w, w', hmove⟩ := workerMove hworker h
    rw [hmove.workers] at hv
    rcases List.mem_or_eq_of_mem_set hv with hv | rfl
    · exact hs.no_exit v hv l
    · exact fun hexit => hmove.exiting l hexit hfree

theorem quietInv_init (d : σ) : QuietInv (cellThread C d).init :=
  ⟨beforeExit_init (C := C) d, nofun⟩

/-! ## Steps seen from the current worker -/

theorem current_congr (h : t.workers = s.workers) : t.current = s.current := by
  rw [State.current, h, State.current]

/-- What a step is, when at most one worker is alive and none calls `Exit`: it is told by
the current worker, the data, and what the control threads did. -/
inductive CurrentStep (C : Callbacks σ ω δ ι) (s t : State σ ω δ) : Act ι → Prop where
  /-- A control thread; it neither spawns a worker nor enters `Close`. -/
  | control {a : Act ι} : t.workers = s.workers → t.data = s.data → t.isRun = s.isRun →
      t.atClose = s.atClose → (t.closeReturned = true → s.close = .returning) → CurrentStep C s t a
  /-- A `Close` gets the mutex. -/
  | close : t.workers = s.workers → t.data = s.data → s.close = .idle → t.isRun = false →
      t.atClose = s.data → (t.closeReturned = true → s.isRun = false) → CurrentStep C s t .close
  /-- Another thread works on the data. -/
  | external {i : ι} : t.workers = s.workers → C.external s.data i = some t.data →
      t.isRun = s.isRun → t.atClose = s.atClose → t.closeReturned = false →
      CurrentStep C s t (.external i)
  /-- A worker is spawned. -/
  | spawn : s.current = .done → t.current = .onCreate → t.data = s.data → t.isRun = true →
      t.atClose = s.atClose → t.closeReturned = false → CurrentStep C s t .start
  /-- The current worker moves; its data change if it is in a callback. -/
  | move {a : Act ι} : s.workers ≠ [] → t.isRun = s.isRun → t.atClose = s.atClose →
      t.closeReturned = false →
      (s.current = .onCreate ∧ t.current = .onRun C.runStart ∧ t.data = s.data ∨
        (∃ i l n, s.current = .onRun l ∧ C.onRun s.isRun s.data l i = some (t.data, n) ∧
          t.current = .ofRun C.destroyStart n) ∨
        (∃ i l o, s.current = .onDestory l ∧ C.onDestory s.data l i = some (t.data, o) ∧
          t.current = .ofDestory o) ∨
        s.current = .wakeup ∧ t.current = .done ∧ t.data = s.data) →
      CurrentStep C s t a

theorem currentStep (hs : QuietInv s) {a : Act ι} (h : step C s a = some t) :
    CurrentStep C s t a := by
  have hne {j : ℕ} {w : Worker ω δ} (hw : s.workers[j]? = some w) : s.workers ≠ [] := by
    rintro hnil
    rw [hnil, List.getElem?_nil] at hw
    cases hw
  cases a with
  | start =>
    obtain ⟨hidle, rfl⟩ := step_start.mp h
    by_cases hrun : s.isRun = true
    · rw [start, if_pos hrun]
      exact .control rfl rfl rfl rfl fun hret => (by cases hret)
    · have hdone := (hs.stopped hidle (Bool.eq_false_iff.mpr hrun)).1
      have hsingle := (inv_start hs.toInv hidle fun _ => hdone).single
      rw [start, if_neg hrun] at hsingle ⊢
      refine .spawn hdone.current ?_ rfl rfl rfl rfl
      exact hsingle.current (List.getElem?_concat_length) trivial
  | close =>
    obtain ⟨hidle, rfl⟩ := step_close.mp h
    by_cases hrun : s.isRun = true
    · rw [closeEnter, if_pos hrun]
      exact .close rfl rfl hidle rfl rfl fun hret => (by cases hret)
    · have hstop := Bool.eq_false_iff.mpr hrun
      rw [closeEnter, if_neg hrun]
      exact .close rfl rfl hidle hstop rfl fun _ => hstop
  | wait =>
    obtain ⟨-, rfl⟩ := step_wait.mp h
    exact .control rfl rfl rfl rfl fun hret => (by cases hret)
  | resume =>
    obtain ⟨-, rfl⟩ := step_resume.mp h
    exact .control rfl rfl rfl rfl fun hret => (by cases hret)
  | closeReturn =>
    obtain ⟨hret, rfl⟩ := step_closeReturn.mp h
    exact .control rfl rfl rfl rfl fun _ => hret
  | external i =>
    obtain ⟨d, hd, rfl⟩ := step_external.mp h
    exact .external rfl hd rfl rfl rfl
  | create j =>
    obtain ⟨hw, rfl⟩ := step_create.mp h
    obtain ⟨hfrom, hto⟩ := (move_create (C := C) hw).current hs.single
    exact .move (hne hw) rfl rfl rfl (.inl ⟨hfrom, hto, rfl⟩)
  | run j i =>
    obtain ⟨l, d, n, hw, hrun, rfl⟩ := step_run.mp h
    obtain ⟨hfrom, hto⟩ := (move_run hw hrun).current hs.single
    exact .move (hne hw) rfl rfl rfl (.inr (.inl ⟨i, l, n, hfrom, hrun, hto⟩))
  | exit j => exact absurd rfl (hs.ne_exit h j)
  | destroy j i =>
    obtain ⟨l, d, o, hw, hdestroy, rfl⟩ := step_destroy.mp h
    obtain ⟨hfrom, hto⟩ := (move_destroy (C := C) hw d o).current hs.single
    exact .move (hne hw) rfl rfl rfl (.inr (.inr (.inl ⟨i, l, o, hfrom, hdestroy, hto⟩)))
  | wakeup j =>
    obtain ⟨hw, rfl⟩ := step_wakeup.mp h
    obtain ⟨hfrom, hto⟩ := (move_wakeup (C := C) hw).current hs.single
    exact .move (hne hw) rfl rfl rfl (.inr (.inr (.inr ⟨hfrom, hto, rfl⟩)))

end CellThread
end EasyTcpServer
