import EasyTcpServer.Lib.Machine
import EasyTcpServer.Thread.CellSemaphore

/-!
# `Cell_Thread`

A `Cell_Thread` owns a flag `_isRun`, a mutex and a semaphore.  `Start` spawns a worker,
which runs `onCreate`, `onRun` and `onDestory` and then calls `wakeup`.  `Close` lowers the
flag and waits on the semaphore, and keeps the mutex while it waits.  `Exit`, called by the
worker inside `onRun`, lowers the flag under the same mutex.

The machine interleaves any number of control threads that call `Start` and `Close` with
all workers spawned so far.  What the callbacks do is a parameter, `Callbacks`: they work
on data of the object that owns the thread, step by step, and between any two of their
steps other threads may change the same data.

Three points of the source that the design follows:

* The mutex is held for longer than one step by `Close` only.  So the mutex is free exactly
  when no `Close` is inside, and `ClosePhase` is both the state of the mutex and the
  progress of the one `Close` that has it.  `Start` and `Exit` do their work in one step,
  which is enabled when the mutex is free.
* `onRun` reads `_isRun` without the mutex.  The reads and writes of the flag are taken in
  the order of the interleaving.
* Threads are detached.  Nothing joins a worker, and the list of workers only grows.

`onCreate` is a null pointer wherever the repository calls `Start`.  It is kept as a step of
its own that does nothing.
-/

namespace EasyTcpServer

universe u v w x

/-- What the code of `onRun` does after a step. -/
inductive Next (ω : Type u) where
  /-- It goes on. -/
  | goto (l : ω)
  /-- It calls `Exit`, and goes on from `l` when the call returns. -/
  | exit (l : ω)
  /-- It returns. -/
  | ret
  deriving DecidableEq, Repr

/-- The callbacks `onRun` and `onDestory` of a thread, and what other threads do to the
same data.  `σ` is the data, `ω` and `δ` are the places in the code of the two callbacks, and
a label of type `ι` says what the environment does in a step. -/
structure Callbacks (σ : Type u) (ω : Type v) (δ : Type w) (ι : Type x) where
  /-- Where `onRun` starts. -/
  runStart : ω
  /-- A step of `onRun`; the Boolean is the value of `isRun()`. -/
  onRun : Bool → σ → ω → ι → Option (σ × Next ω)
  /-- Where `onDestory` starts. -/
  destroyStart : δ
  /-- A step of `onDestory`; it has returned when no place is left to go on from. -/
  onDestory : σ → δ → ι → Option (σ × Option δ)
  /-- A step of another thread. -/
  external : σ → ι → Option σ

/-- `onRun` never calls `Exit`. -/
def Callbacks.ExitFree {σ : Type u} {ω : Type v} {δ : Type w} {ι : Type x}
    (C : Callbacks σ ω δ ι) : Prop :=
  ∀ b d l i d' l', C.onRun b d l i ≠ some (d', .exit l')

namespace CellThread

/-- Where a worker is in `OnWork`. -/
inductive Worker (ω : Type u) (δ : Type v) where
  | onCreate
  | onRun (l : ω)
  /-- In the call of `Exit`, before it has the mutex. -/
  | exiting (l : ω)
  | onDestory (l : δ)
  /-- Behind `onDestory`, before `wakeup`. -/
  | wakeup
  /-- Behind `wakeup`: the thread has nothing left to do. -/
  | done
  deriving DecidableEq, Repr

namespace Worker

variable {ω : Type u} {δ : Type v}

/-- The end of `onDestory` has passed. -/
def AfterDestory : Worker ω δ → Prop
  | .wakeup | .done => True
  | _ => False

/-- The thread has something left to do. -/
def Alive : Worker ω δ → Prop
  | .done => False
  | _ => True

instance : DecidablePred (@AfterDestory ω δ) := fun w => by
  cases w <;> unfold AfterDestory <;> infer_instance

instance : DecidablePred (@Alive ω δ) := fun w => by
  cases w <;> unfold Alive <;> infer_instance

/-- Where a worker is that has taken a step of `onRun`. -/
def ofRun (destroyStart : δ) : Next ω → Worker ω δ
  | .goto l => .onRun l
  | .exit l => .exiting l
  | .ret => .onDestory destroyStart

/-- Where a worker is that has taken a step of `onDestory`. -/
def ofDestory : Option δ → Worker ω δ
  | some l => .onDestory l
  | none => .wakeup

theorem alive_ofRun (l : δ) (n : Next ω) : (ofRun l n).Alive := by
  cases n <;> trivial

theorem alive_ofDestory (o : Option δ) : (ofDestory o : Worker ω δ).Alive := by
  cases o <;> trivial

theorem AfterDestory.of_not_alive {w : Worker ω δ} (h : ¬ w.Alive) : w.AfterDestory := by
  cases w <;> simp_all [Alive, AfterDestory]

end Worker

/-- Where the `Close` that has the mutex is. -/
inductive ClosePhase where
  /-- No `Close` is inside: the mutex is free. -/
  | idle
  /-- It has found `_isRun` up and lowered it. -/
  | stopping
  /-- It is blocked in `_sem.wait()`. -/
  | blocked
  /-- It is behind `_sem.wait()`. -/
  | returning
  deriving DecidableEq, Repr

/-- A `Cell_Thread` with the data its callbacks work on. -/
structure State (σ : Type u) (ω : Type v) (δ : Type w) where
  data : σ
  isRun : Bool
  close : ClosePhase
  sem : CellSemaphore
  /-- The workers, in the order in which `Start` has spawned them. -/
  workers : List (Worker ω δ)
  /-- The last step was the return of a `Close`. -/
  closeReturned : Bool
  /-- The data at the moment the last `Close` got the mutex. -/
  atClose : σ
  deriving DecidableEq, Repr

/-- The steps. -/
inductive Act (ι : Type x) where
  /-- A call of `Start`. -/
  | start
  /-- A call of `Close` gets the mutex; it returns in the same step if `_isRun` is down. -/
  | close
  /-- That `Close` enters `_sem.wait()`. -/
  | wait
  /-- It is woken. -/
  | resume
  /-- It returns. -/
  | closeReturn
  /-- Worker `j` passes `onCreate`. -/
  | create (j : ℕ)
  /-- Worker `j` takes a step of `onRun`. -/
  | run (j : ℕ) (i : ι)
  /-- Worker `j` gets the mutex in `Exit`. -/
  | exit (j : ℕ)
  /-- Worker `j` takes a step of `onDestory`. -/
  | destroy (j : ℕ) (i : ι)
  /-- Worker `j` calls `wakeup`. -/
  | wakeup (j : ℕ)
  /-- Another thread takes a step on the data. -/
  | external (i : ι)
  deriving DecidableEq, Repr

variable {σ : Type u} {ω : Type v} {δ : Type w} {ι : Type x}

namespace State

/-- Worker `j` comes to `w`. -/
def setWorker (s : State σ ω δ) (j : ℕ) (w : Worker ω δ) : State σ ω δ :=
  { s with workers := s.workers.set j w, closeReturned := false }

end State

/-- `Start()`. -/
def start (s : State σ ω δ) : State σ ω δ :=
  if s.isRun then { s with closeReturned := false }
  else
    { s with
      isRun := true
      workers := s.workers ++ [.onCreate]
      closeReturned := false }

/-- `Close()`, from the mutex to the wait. -/
def closeEnter (s : State σ ω δ) : State σ ω δ :=
  if s.isRun then
    { s with isRun := false, close := .stopping, closeReturned := false, atClose := s.data }
  else { s with closeReturned := true, atClose := s.data }

/-- `_sem.wait()` as `Close` calls it, up to the condition variable. -/
def closeWait (s : State σ ω δ) : State σ ω δ :=
  { s with
    close := if s.sem.blocks then .blocked else .returning
    sem := s.sem.enterWait
    closeReturned := false }

/-- A step of worker `j`, which is at `w`. -/
def workerStep (C : Callbacks σ ω δ ι) (s : State σ ω δ) (j : ℕ) (w : Worker ω δ) :
    Act ι → Option (State σ ω δ)
  | .create _ =>
    match w with
    | .onCreate => some (s.setWorker j (.onRun C.runStart))
    | _ => none
  | .run _ i =>
    match w with
    | .onRun l =>
      (C.onRun s.isRun s.data l i).map fun r =>
        { s.setWorker j (Worker.ofRun C.destroyStart r.2) with data := r.1 }
    | _ => none
  | .exit _ =>
    match w with
    | .exiting l =>
      if s.close = .idle then some { s.setWorker j (.onRun l) with isRun := false } else none
    | _ => none
  | .destroy _ i =>
    match w with
    | .onDestory l =>
      (C.onDestory s.data l i).map fun r =>
        { s.setWorker j (Worker.ofDestory r.2) with data := r.1 }
    | _ => none
  | .wakeup _ =>
    match w with
    | .wakeup => some { s.setWorker j .done with sem := s.sem.signal }
    | _ => none
  | _ => none

/-- The worker that takes a step. -/
def Act.worker? : Act ι → Option ℕ
  | .create j | .run j _ | .exit j | .destroy j _ | .wakeup j => some j
  | _ => none

/-- A step of a control thread, or of another thread on the data. -/
def controlStep (C : Callbacks σ ω δ ι) (s : State σ ω δ) : Act ι → Option (State σ ω δ)
  | .start => if s.close = .idle then some (start s) else none
  | .close => if s.close = .idle then some (closeEnter s) else none
  | .wait => if s.close = .stopping then some (closeWait s) else none
  | .resume =>
    if s.close = .blocked ∧ s.sem.mayResume then
      some { s with close := .returning, sem := s.sem.resume, closeReturned := false }
    else none
  | .closeReturn =>
    if s.close = .returning then some { s with close := .idle, closeReturned := true } else none
  | .external i =>
    (C.external s.data i).map fun d => { s with data := d, closeReturned := false }
  | _ => none

/-- What any step does. -/
def step (C : Callbacks σ ω δ ι) (s : State σ ω δ) (a : Act ι) : Option (State σ ω δ) :=
  match a.worker? with
  | some j => (s.workers[j]?).bind fun w => workerStep C s j w a
  | none => controlStep C s a

end CellThread

/-- A new `Cell_Thread` whose callbacks are `C`, on data `d`. -/
def cellThread {σ : Type u} {ω : Type v} {δ : Type w} {ι : Type x} (C : Callbacks σ ω δ ι) (d : σ) :
    Machine (CellThread.State σ ω δ) (CellThread.Act ι) where
  init := ⟨d, false, .idle, .new, [], false, d⟩
  step := CellThread.step C

namespace CellThread

variable {σ : Type u} {ω : Type v} {δ : Type w} {ι : Type x}
variable {C : Callbacks σ ω δ ι} {s t : State σ ω δ}

/-! ## Steps of workers -/

/-- What every step of worker `j` has in common: it goes from `w` to `w'`, never back in
front of the end of `onDestory`; the semaphore is signalled by its last step only, and the
flag is lowered or left. -/
structure WorkerMove (C : Callbacks σ ω δ ι) (s t : State σ ω δ) (j : ℕ) (w w' : Worker ω δ) :
    Prop where
  worker : s.workers[j]? = some w
  alive : w.Alive
  workers : t.workers = s.workers.set j w'
  close : t.close = s.close
  closeReturned : t.closeReturned = false
  atClose : t.atClose = s.atClose
  afterDestory : w.AfterDestory → w'.AfterDestory
  sem : t.sem = s.sem ∧ w'.Alive ∨ t.sem = s.sem.signal ∧ w' = .done
  isRun : t.isRun = s.isRun ∨ ∃ l, w = .exiting l ∧ t.isRun = false
  exiting : ∀ l, w' = .exiting l → ¬ C.ExitFree

/-- A step of worker `j` is a step from where it is. -/
theorem step_worker {a : Act ι} {j : ℕ} (ha : a.worker? = some j) : step C s a = some t ↔
    ∃ w, s.workers[j]? = some w ∧ workerStep C s j w a = some t := by
  rw [step, ha]
  exact Option.bind_eq_some_iff

theorem step_create {j : ℕ} : step C s (.create j) = some t ↔
    s.workers[j]? = some .onCreate ∧ t = s.setWorker j (.onRun C.runStart) := by
  refine (step_worker rfl).trans ⟨?_, ?_⟩
  · rintro ⟨w, hw, h⟩
    cases w with
    | onCreate => exact ⟨hw, (Option.some.inj h).symm⟩
    | _ => cases h
  · rintro ⟨hw, rfl⟩
    exact ⟨_, hw, rfl⟩

theorem step_run {j : ℕ} {i : ι} : step C s (.run j i) = some t ↔
    ∃ l d n, s.workers[j]? = some (.onRun l) ∧ C.onRun s.isRun s.data l i = some (d, n) ∧
      t = { s.setWorker j (Worker.ofRun C.destroyStart n) with data := d } := by
  refine (step_worker rfl).trans ⟨?_, ?_⟩
  · rintro ⟨w, hw, h⟩
    cases w with
    | onRun l =>
      obtain ⟨⟨d, n⟩, hstep, rfl⟩ := Option.map_eq_some_iff.mp h
      exact ⟨l, d, n, hw, hstep, rfl⟩
    | _ => cases h
  · rintro ⟨l, d, n, hw, hstep, rfl⟩
    exact ⟨_, hw, Option.map_eq_some_iff.mpr ⟨(d, n), hstep, rfl⟩⟩

theorem step_exit {j : ℕ} : step C s (.exit j) = some t ↔
    ∃ l, s.workers[j]? = some (.exiting l) ∧ s.close = .idle ∧
      t = { s.setWorker j (.onRun l) with isRun := false } := by
  refine (step_worker rfl).trans ⟨?_, ?_⟩
  · rintro ⟨w, hw, h⟩
    cases w with
    | exiting l =>
      obtain ⟨hidle, rfl⟩ := Machine.guarded_eq_some.mp h
      exact ⟨l, hw, hidle, rfl⟩
    | _ => cases h
  · rintro ⟨l, hw, hidle, rfl⟩
    exact ⟨_, hw, Machine.guarded_eq_some.mpr ⟨hidle, rfl⟩⟩

theorem step_destroy {j : ℕ} {i : ι} : step C s (.destroy j i) = some t ↔
    ∃ l d o, s.workers[j]? = some (.onDestory l) ∧ C.onDestory s.data l i = some (d, o) ∧
      t = { s.setWorker j (Worker.ofDestory o) with data := d } := by
  refine (step_worker rfl).trans ⟨?_, ?_⟩
  · rintro ⟨w, hw, h⟩
    cases w with
    | onDestory l =>
      obtain ⟨⟨d, o⟩, hstep, rfl⟩ := Option.map_eq_some_iff.mp h
      exact ⟨l, d, o, hw, hstep, rfl⟩
    | _ => cases h
  · rintro ⟨l, d, o, hw, hstep, rfl⟩
    exact ⟨_, hw, Option.map_eq_some_iff.mpr ⟨(d, o), hstep, rfl⟩⟩

theorem step_wakeup {j : ℕ} : step C s (.wakeup j) = some t ↔
    s.workers[j]? = some .wakeup ∧ t = { s.setWorker j .done with sem := s.sem.signal } := by
  refine (step_worker rfl).trans ⟨?_, ?_⟩
  · rintro ⟨w, hw, h⟩
    cases w with
    | wakeup => exact ⟨hw, (Option.some.inj h).symm⟩
    | _ => cases h
  · rintro ⟨hw, rfl⟩
    exact ⟨_, hw, rfl⟩

section Move

variable {j : ℕ} {l : ω}

theorem move_create (hw : s.workers[j]? = some .onCreate) :
    WorkerMove C s (s.setWorker j (.onRun C.runStart)) j .onCreate (.onRun C.runStart) :=
  ⟨hw, trivial, rfl, rfl, rfl, rfl, False.elim, .inl ⟨rfl, trivial⟩, .inl rfl, nofun⟩

theorem move_run {i : ι} {d : σ} {n : Next ω} (hw : s.workers[j]? = some (.onRun l))
    (hrun : C.onRun s.isRun s.data l i = some (d, n)) :
    WorkerMove C s { s.setWorker j (Worker.ofRun C.destroyStart n) with data := d } j
      (.onRun l) (.ofRun C.destroyStart n) := by
  refine ⟨hw, trivial, rfl, rfl, rfl, rfl, False.elim, .inl ⟨rfl, Worker.alive_ofRun _ n⟩,
    .inl rfl, fun l' hexit hfree => ?_⟩
  cases n with
  | exit l'' => exact hfree _ _ _ _ _ _ hrun
  | _ => cases hexit

theorem move_exit (hw : s.workers[j]? = some (.exiting l)) :
    WorkerMove C s { s.setWorker j (.onRun l) with isRun := false } j (.exiting l) (.onRun l) :=
  ⟨hw, trivial, rfl, rfl, rfl, rfl, False.elim, .inl ⟨rfl, trivial⟩, .inr ⟨l, rfl, rfl⟩, nofun⟩

theorem move_destroy {l : δ} (hw : s.workers[j]? = some (.onDestory l)) (d : σ) (o : Option δ) :
    WorkerMove C s { s.setWorker j (Worker.ofDestory o) with data := d } j
      (.onDestory l) (.ofDestory o) := by
  refine ⟨hw, trivial, rfl, rfl, rfl, rfl, False.elim, .inl ⟨rfl, Worker.alive_ofDestory o⟩,
    .inl rfl, fun l' hexit => ?_⟩
  cases o <;> cases hexit

theorem move_wakeup (hw : s.workers[j]? = some .wakeup) :
    WorkerMove C s { s.setWorker j .done with sem := s.sem.signal } j .wakeup .done :=
  ⟨hw, trivial, rfl, rfl, rfl, rfl, fun _ => trivial, .inr ⟨rfl, rfl⟩, .inl rfl, nofun⟩

end Move

/-- **Every step of a worker is a move.** -/
theorem workerMove {a : Act ι} {j : ℕ} (ha : a.worker? = some j) (h : step C s a = some t) :
    ∃ w w', WorkerMove C s t j w w' := by
  cases a with
  | create k =>
    obtain rfl : k = j := Option.some.inj ha
    obtain ⟨hw, rfl⟩ := step_create.mp h
    exact ⟨_, _, move_create hw⟩
  | run k i =>
    obtain rfl : k = j := Option.some.inj ha
    obtain ⟨l, d, n, hw, hrun, rfl⟩ := step_run.mp h
    exact ⟨_, _, move_run hw hrun⟩
  | exit k =>
    obtain rfl : k = j := Option.some.inj ha
    obtain ⟨l, hw, -, rfl⟩ := step_exit.mp h
    exact ⟨_, _, move_exit hw⟩
  | destroy k i =>
    obtain rfl : k = j := Option.some.inj ha
    obtain ⟨l, d, o, hw, -, rfl⟩ := step_destroy.mp h
    exact ⟨_, _, move_destroy hw d o⟩
  | wakeup k =>
    obtain rfl : k = j := Option.some.inj ha
    obtain ⟨hw, rfl⟩ := step_wakeup.mp h
    exact ⟨_, _, move_wakeup hw⟩
  | _ => cases ha

/-! ## Steps of control threads -/

theorem step_start : step C s .start = some t ↔ s.close = .idle ∧ t = start s :=
  Machine.guarded_eq_some

theorem step_close : step C s .close = some t ↔ s.close = .idle ∧ t = closeEnter s :=
  Machine.guarded_eq_some

theorem step_wait : step C s .wait = some t ↔ s.close = .stopping ∧ t = closeWait s :=
  Machine.guarded_eq_some

theorem step_resume : step C s .resume = some t ↔
    (s.close = .blocked ∧ s.sem.mayResume = true) ∧
      t = { s with close := .returning, sem := s.sem.resume, closeReturned := false } :=
  Machine.guarded_eq_some

theorem step_closeReturn : step C s .closeReturn = some t ↔
    s.close = .returning ∧ t = { s with close := .idle, closeReturned := true } :=
  Machine.guarded_eq_some

theorem step_external {i : ι} : step C s (.external i) = some t ↔
    ∃ d, C.external s.data i = some d ∧ t = { s with data := d, closeReturned := false } := by
  refine Option.map_eq_some_iff.trans (exists_congr fun d => ?_)
  rw [eq_comm (a := t)]

end CellThread
end EasyTcpServer
