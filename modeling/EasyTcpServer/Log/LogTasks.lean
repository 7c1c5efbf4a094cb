import EasyTcpServer.Log.LogThreads
import EasyTcpServer.Log.OpenFiles
import EasyTcpServer.Task.TaskThread

/-!
# The tasks of a log and the files they write to

`Info` tests the pointer, and the task that it appends trusts that test.  `Undisturbed` says when
it can: nobody takes a file away while something is left that will use it, and `Info` does not
find a pointer to a file that has been closed.

* `logTasks_law`: in a run of undisturbed steps every use of a file finds it open, and any other
  step leaves a state from which some use does not.
-/

namespace EasyTcpServer
namespace LogTasks

open CellLog (HasOpen Files SameFiles files_new not_hasOpen_fclose not_hasOpen_of_none)

/-! ## What is expected, and when -/

/-- When the worker is about to use a file in a task, the file is open. -/
def UsesOpen (s : State) : Prop := ∀ u ∈ s.worker.body.head?, HasOpen s.log u.1

instance : DecidablePred UsesOpen := fun s => by
  unfold UsesOpen
  infer_instance

/-- The channel of a task that is about to be appended. -/
def Loc.adding : Loc → List Channel
  | .addTask task _ => [task.channel]
  | _ => []

/-- The channels whose file is still to be used: by the task that runs, by those that wait for the
worker, and by those that a thread is about to append. -/
def State.pending (s : State) : List Channel :=
  s.worker.body.map Prod.fst ++
    ((s.log.taskServer.waiting s.worker.loc).map LogTask.channel ++ s.callers.flatMap Loc.adding)

/-- The channel that a step leaves without an open file. -/
def Loc.takes (ok : Bool) : Loc → Option Channel
  | .fclose p | .setNull p => some p.own
  | .fopen p => if ok then none else some p.own
  | _ => none

/-- The channel for which `Info` is about to find a file. -/
def Loc.finds (log : CellLog) : Loc → Option Channel
  | .info msgLevel pStr _ =>
    match log.infoEffect msgLevel pStr with
    | .addTask task => some task.channel
    | _ => none
  | _ => none

/-- A file is taken away only when nothing is left that will use it; and `Info` is not between an
`fclose` and the null pointer behind it when it finds that there is a file. -/
def Undisturbed (s : State) : Act → Prop
  | .caller j ok => ∀ l ∈ s.callers[j]?,
    (∀ c ∈ l.takes ok, c ∉ s.pending) ∧ ∀ c ∈ l.finds s.log, HasOpen s.log c
  | _ => True

instance (s : State) (i : Act) : Decidable (Undisturbed s i) := by
  cases i <;> unfold Undisturbed <;> infer_instance

variable {log log' : CellLog} {c c' : Channel} {ok : Bool} {l l' : Loc}

/-! ## What a step can do -/

/-- What a step inside a call can do to the log. -/
inductive CallStep (log : CellLog) : Bool → Loc → CellLog → Loc → Prop where
  /-- It changes neither a file nor the tasks, and the thread is about to append nothing. -/
  | quiet {ok : Bool} {l l' : Loc} {log' : CellLog} : SameFiles log log' →
      log'.taskServer = log.taskServer → l.takes ok = none → l.finds log = none →
      l.adding = [] → l'.adding = [] → CallStep log ok l log' l'
  | finds {ok : Bool} {l : Loc} {task : LogTask} {next : Return} :
      l.finds log = some task.channel → l.takes ok = none → l.adding = [] →
      CallStep log ok l log (.addTask task next)
  | addTask {ok : Bool} (task : LogTask) (next : Return) :
      CallStep log ok (.addTask task next) (log.addTask task) next.loc
  | fclose {ok : Bool} (p : SetPath) :
      CallStep log ok (.fclose p) (log.fclose p.own) (.setNull p)
  | setNull {ok : Bool} (p : SetPath) :
      CallStep log ok (.setNull p) (log.setFile none p.own) (.fopen p)
  | fopen {ok : Bool} (p : SetPath) :
      CallStep log ok (.fopen p) (log.fopen p.own ok) (.check p)

theorem Return.adding_loc (next : Return) : next.loc.adding = [] := by
  cases next <;> rfl

theorem callStep_cases (h : callStep log ok l = some (log', l')) : CallStep log ok l log' l' := by
  cases l with
  | outside ret => cases h
  | info msgLevel pStr next =>
    cases heffect : log.infoEffect msgLevel pStr with
    | print p =>
      simp only [callStep, heffect, Option.some.injEq, Prod.mk.injEq] at h
      obtain ⟨rfl, rfl⟩ := h
      exact .quiet (log.sameFiles_print p) rfl rfl (by rw [Loc.finds, heffect]) rfl next.adding_loc
    | addTask task =>
      simp only [callStep, heffect, Option.some.injEq, Prod.mk.injEq] at h
      obtain ⟨rfl, rfl⟩ := h
      exact .finds (by rw [Loc.finds, heffect]) rfl rfl
    | nothing =>
      simp only [callStep, heffect, Option.some.injEq, Prod.mk.injEq] at h
      obtain ⟨rfl, rfl⟩ := h
      exact .quiet (.refl log) rfl rfl (by rw [Loc.finds, heffect]) rfl next.adding_loc
  | addTask task next =>
    obtain ⟨rfl, rfl⟩ := Prod.mk.inj (Option.some.inj h)
    exact .addTask task next
  | test p =>
    obtain ⟨rfl, rfl⟩ := Prod.mk.inj (Option.some.inj h)
    exact .quiet (.refl log) rfl rfl rfl rfl (by split_ifs <;> rfl)
  | fclose p =>
    obtain ⟨rfl, rfl⟩ := Prod.mk.inj (Option.some.inj h)
    exact .fclose p
  | setNull p =>
    obtain ⟨rfl, rfl⟩ := Prod.mk.inj (Option.some.inj h)
    exact .setNull p
  | fopen p =>
    obtain ⟨rfl, rfl⟩ := Prod.mk.inj (Option.some.inj h)
    exact .fopen p
  | check p =>
    obtain ⟨rfl, rfl⟩ := Prod.mk.inj (Option.some.inj h)
    exact .quiet (.refl log) rfl rfl rfl rfl (by split_ifs <;> rfl)

variable {s t : State} {j : ℕ}

theorem step_caller (h : step s (.caller j ok) = some t) :
    ∃ l log' l', s.callers[j]? = some l ∧ CallStep s.log ok l log' l' ∧
      t = { s with log := log', callers := s.callers.set j l' } := by
  obtain ⟨⟨log', l'⟩, hcall, rfl⟩ := Option.map_eq_some_iff.mp h
  obtain ⟨l, hl, hcall⟩ := Option.bind_eq_some_iff.mp hcall
  exact ⟨l, log', l', hl, callStep_cases hcall, rfl⟩

theorem step_call {call : Call} (h : step s (.call j call) = some t) :
    t = { s with callers := s.callers.set j call.start } := by
  cases hl : s.callers[j]? with
  | none => simp [step, hl] at h
  | some l =>
    cases l with
    | outside => simpa [step, hl, eq_comm] using h
    | _ => simp [step, hl] at h

/-- What a step of the worker can do. -/
inductive WorkerStep (s : State) : State → Prop where
  | use {u : Channel × FileUse} {body : List (Channel × FileUse)} : s.worker.body = u :: body →
      WorkerStep s { s with worker := { s.worker with body := body } }
  | onRun {q : CellTaskServer LogTask} {started : Option LogTask} {l : CellTaskServer.Loc} :
      s.worker.body = [] →
      CellTaskServer.OnRun s.log.taskServer true s.worker.loc q started (.goto l) →
      WorkerStep s { s with
        log := { s.log with taskServer := q }
        worker := ⟨l, started.toList.flatMap LogTask.body⟩ }

theorem step_worker (h : step s .worker = some t) : WorkerStep s t := by
  have hrun := s.log.taskServer.onRun_cases true s.worker.loc
  cases hbody : s.worker.body with
  | cons u body =>
    simp only [step, workerStep, hbody, Option.some.injEq] at h
    exact h ▸ .use hbody
  | nil =>
    simp only [step, workerStep, hbody] at h
    generalize s.log.taskServer.onRun true s.worker.loc = r at h hrun
    obtain ⟨q, started, next⟩ := r
    cases next with
    | goto l =>
      obtain rfl := Option.some.inj h
      exact .onRun hbody hrun
    | exit l => cases h
    | ret => cases h

/-! ## Undisturbed runs -/

/-- What is still to be used is open. -/
structure Inv (s : State) : Prop where
  files : Files s.log
  inLoop : s.worker.loc.InLoop
  ready : ∀ c ∈ s.pending, HasOpen s.log c

theorem mem_pending {s : State} : c ∈ s.pending ↔ (∃ u ∈ s.worker.body, u.1 = c) ∨
    (∃ task ∈ s.log.taskServer.waiting s.worker.loc, task.channel = c) ∨
      ∃ l ∈ s.callers, c ∈ l.adding := by
  simp only [State.pending, List.mem_append, List.mem_map, List.mem_flatMap]

/-- What is appended is waiting, and was about to be appended. -/
theorem mem_waiting_addTask {q : CellTaskServer LogTask} {task task' : LogTask}
    {w : CellTaskServer.Loc} (h : task' ∈ (q.addTask task).waiting w) :
    task' ∈ q.waiting w ∨ task' = task := by
  simp only [CellTaskServer.waiting, CellTaskServer.addTask, List.drop_append,
    List.mem_append] at h ⊢
  rcases h with hold | hold | hnew
  · exact .inl (.inl hold)
  · exact .inl (.inr hold)
  · exact .inr (List.mem_singleton.mp (List.mem_of_mem_drop hnew))

/-- **What a step inside a call leaves to be used**: what was left before, or the file that `Info`
has found. -/
theorem mem_pending_caller (hl : s.callers[j]? = some l) (h : CallStep s.log ok l log' l')
    (hc : c ∈ State.pending { s with log := log', callers := s.callers.set j l' }) :
    c ∈ s.pending ∨ c ∈ l.finds s.log := by
  have hmem : l ∈ s.callers := List.mem_of_getElem? hl
  rw [mem_pending] at hc ⊢
  obtain hbody | hwaiting | ⟨m, hm, hadding⟩ := hc
  · exact .inl (.inl hbody)
  · -- only an append changes what waits
    cases h with
    | addTask task next =>
      obtain ⟨task', htask', rfl⟩ := hwaiting
      obtain hold | rfl := mem_waiting_addTask htask'
      · exact .inl (.inr (.inl ⟨task', hold, rfl⟩))
      · exact .inl (.inr (.inr ⟨_, hmem, List.mem_singleton.mpr rfl⟩))
    | quiet _ hserver =>
      rw [hserver] at hwaiting
      exact .inl (.inr (.inl hwaiting))
    | setNull p =>
      rw [CellLog.taskServer_setFile] at hwaiting
      exact .inl (.inr (.inl hwaiting))
    | fopen p =>
      rw [CellLog.taskServer_fopen] at hwaiting
      exact .inl (.inr (.inl hwaiting))
    | finds => exact .inl (.inr (.inl hwaiting))
    | fclose p => exact .inl (.inr (.inl hwaiting))
  · obtain hold | rfl := List.mem_or_eq_of_mem_set hm
    · exact .inl (.inr (.inr ⟨m, hold, hadding⟩))
    · cases h with
      | finds hfinds =>
        rw [List.mem_singleton.mp hadding]
        exact .inr hfinds
      | quiet _ _ _ _ _ hnone =>
        rw [hnone] at hadding
        cases hadding
      | addTask task next =>
        rw [next.adding_loc] at hadding
        cases hadding
      | fclose | setNull | fopen => cases hadding

/-- **What a step inside a call does to the files**: those that it does not take stay open. -/
theorem CallStep.files (h : CallStep log ok l log' l') (hfiles : Files log) :
    Files log' ∧ ∀ c, c ∉ l.takes ok → HasOpen log c → HasOpen log' c := by
  cases h with
  | quiet hsame => exact ⟨hsame.files hfiles, fun c _ hopen => hsame.hasOpen_iff.mpr hopen⟩
  | finds => exact ⟨hfiles, fun c _ hopen => hopen⟩
  | addTask task next =>
    have hsame := log.sameFiles_addTask task
    exact ⟨hsame.files hfiles, fun c _ hopen => hsame.hasOpen_iff.mpr hopen⟩
  | fclose p =>
    exact ⟨hfiles.fclose p.own, fun c hc hopen => hopen.fclose hfiles fun heq => hc (heq ▸ rfl)⟩
  | setNull p =>
    exact ⟨hfiles.setNull p.own, fun c hc hopen => hopen.setNull fun heq => hc (heq ▸ rfl)⟩
  | fopen p =>
    refine ⟨hfiles.fopen p.own ok, fun c hc hopen => ?_⟩
    by_cases hown : c = p.own
    · subst hown
      cases ok with
      | true => exact hfiles.hasOpen_fopen p.own
      | false => exact absurd rfl hc
    · exact hopen.fopen hown ok

/-- When `Info` has found a file, it changes nothing and is about to append. -/
theorem CallStep.found (h : CallStep log ok l log' l') (hc : c ∈ l.finds log) :
    log' = log ∧ c ∈ l'.adding := by
  cases h with
  | finds hfinds =>
    rw [hfinds, Option.mem_some_iff] at hc
    exact ⟨rfl, List.mem_singleton.mpr hc.symm⟩
  | quiet _ _ _ hnone =>
    rw [hnone] at hc
    cases hc
  | addTask | fclose | setNull | fopen => cases hc

/-- A step that takes a file leaves none behind, and does nothing else. -/
theorem CallStep.taken (h : CallStep log ok l log' l') (hc : c ∈ l.takes ok) :
    ¬ HasOpen log' c ∧ l.adding = [] ∧ log'.taskServer = log.taskServer := by
  cases h with
  | quiet _ _ hnone | finds _ hnone =>
    rw [hnone] at hc
    cases hc
  | addTask => cases hc
  | fclose p =>
    cases hc
    exact ⟨not_hasOpen_fclose _ _, rfl, rfl⟩
  | setNull p =>
    cases hc
    exact ⟨not_hasOpen_of_none (CellLog.file_setFile _ _ _), rfl, CellLog.taskServer_setFile _ _ _⟩
  | fopen p =>
    cases ok with
    | true => cases hc
    | false =>
      cases hc
      exact ⟨not_hasOpen_of_none (CellLog.file_fopen _ _ _), rfl, CellLog.taskServer_fopen _ _ _⟩

theorem Inv.caller (h : Inv s) (hok : Undisturbed s (.caller j ok))
    (hl : s.callers[j]? = some l) (hcall : CallStep s.log ok l log' l') :
    Inv { s with log := log', callers := s.callers.set j l' } := by
  obtain ⟨htakes, hfinds⟩ := hok l hl
  obtain ⟨hfiles, hopen⟩ := hcall.files h.files
  refine ⟨hfiles, h.inLoop, fun c hc => ?_⟩
  obtain hpending | hfound := mem_pending_caller hl hcall hc
  · exact hopen c (fun htaken => htakes c htaken hpending) (h.ready c hpending)
  · obtain ⟨rfl, -⟩ := hcall.found hfound
    exact hfinds c hfound

theorem Inv.worker (h : Inv s) (hstep : WorkerStep s t) : Inv t := by
  cases hstep with
  | use hbody =>
    refine ⟨h.files, h.inLoop, fun c hc => h.ready c ?_⟩
    rw [mem_pending] at hc ⊢
    refine hc.imp_left fun ⟨u, hu, heq⟩ => ⟨u, ?_, heq⟩
    rw [hbody]
    exact List.mem_cons_of_mem _ hu
  | @onRun q started l hbody hrun =>
    obtain ⟨_, ⟨⟩, hl⟩ := h.inLoop.onRun hrun
    have hwaiting := CellTaskServer.waiting_onRun hrun h.inLoop hl
    have hsame := s.log.sameFiles_taskServer q
    refine ⟨hsame.files h.files, hl, fun c hc => hsame.hasOpen_iff.mpr (h.ready c ?_)⟩
    rw [mem_pending] at hc ⊢
    rw [hwaiting]
    obtain ⟨u, hu, rfl⟩ | ⟨task, htask, rfl⟩ | hadding := hc
    · -- the task that has been started was waiting
      obtain ⟨task, htask, hu⟩ := List.mem_flatMap.mp hu
      exact .inr (.inl ⟨task, List.mem_append_left _ htask, (LogTask.fst_of_mem_body hu).symm⟩)
    · exact .inr (.inl ⟨task, List.mem_append_right _ htask, rfl⟩)
    · exact .inr (.inr hadding)

theorem Call.adding_start (call : Call) : call.start.adding = [] := by
  cases call <;> rfl

theorem Inv.call (h : Inv s) (call : Call) :
    Inv { s with callers := s.callers.set j call.start } := by
  refine ⟨h.files, h.inLoop, fun c hc => h.ready c ?_⟩
  rw [mem_pending] at hc ⊢
  refine hc.imp_right (Or.imp_right ?_)
  rintro ⟨l, hl, hadding⟩
  obtain hold | rfl := List.mem_or_eq_of_mem_set hl
  · exact ⟨l, hold, hadding⟩
  · rw [call.adding_start] at hadding
    cases hadding

theorem inv_init (n : ℕ) : Inv (logTasks n).init := by
  refine ⟨files_new, trivial, fun c hc => ?_⟩
  rw [mem_pending] at hc
  obtain ⟨u, hu, -⟩ | ⟨task, htask, -⟩ | ⟨l, hl, hadding⟩ := hc
  · cases hu
  · cases htask
  · rw [(List.mem_replicate.mp hl).2] at hadding
    cases hadding

theorem Inv.step (h : Inv s) {i : Act} (hok : Undisturbed s i)
    (hstep : (logTasks j).step s i = some t) : Inv t := by
  cases i with
  | call k call =>
    rw [step_call hstep]
    exact h.call call
  | caller k ok =>
    obtain ⟨l, log', l', hl, hcall, rfl⟩ := step_caller hstep
    exact h.caller hok hl hcall
  | worker => exact h.worker (step_worker hstep)

/-- **Undisturbed runs**: every use of a file finds it open. -/
theorem usesOpen_of_reachWithin (n : ℕ) (h : (logTasks n).ReachWithin Undisturbed s) :
    UsesOpen s := by
  have hinv : Inv s := h.invariant (inv_init n) fun _ _ _ hs hok hstep => hs.step hok hstep
  intro u hu
  exact hinv.ready u.1 (mem_pending.mpr (.inl ⟨u, List.mem_of_mem_head? hu, rfl⟩))

/-! ## Disturbed steps -/

/-- How far the worker is from the start of the next task that waits for it; `b` says whether
`_tasks` has nothing more behind the iterator. -/
def distance : Bool → CellTaskServer.Loc → ℕ
  | false, .run _ => 0
  | false, .running _ => 1
  | false, .check => 1
  | false, .move => 2
  | false, .test => 3
  | false, .loop => 4
  | true, .move => 5
  | true, .test => 6
  | true, .loop => 7
  | true, .run _ => 8
  | true, .running _ => 9
  | true, .check => 10
  | _, _ => 0

/-- What the worker has to do yet. -/
def rank (s : State) : ℕ :=
  20 * (s.log.taskServer.waiting s.worker.loc).length + s.worker.body.length +
    distance (s.log.taskServer.tasks.drop s.worker.loc.passed.1).isEmpty s.worker.loc

/-- A file that is not open is going to be used by the worker. -/
structure Exposed (c : Channel) (s : State) : Prop where
  inLoop : s.worker.loc.InLoop
  not_open : ¬ HasOpen s.log c
  used : (∃ u ∈ s.worker.body, u.1 = c) ∨
    ∃ task ∈ s.log.taskServer.waiting s.worker.loc, task.channel = c

theorem distance_le (b : Bool) (w : CellTaskServer.Loc) : distance b w ≤ 10 := by
  cases b <;> cases w <;> simp [distance]

/-- A step of `onRun` that starts no task brings the worker nearer to the next one. -/
theorem distance_onRun {q q' : CellTaskServer LogTask} {w w' : CellTaskServer.Loc}
    (h : CellTaskServer.OnRun q true w q' none (.goto w')) (hw : w.InLoop)
    (hne : q.waiting w ≠ []) :
    distance (q'.tasks.drop w'.passed.1).isEmpty w' <
      distance (q.tasks.drop w.passed.1).isEmpty w := by
  cases h with
  | testEmpty hempty =>
    have htasks : q.tasks ≠ [] := by
      simpa [CellTaskServer.waiting, CellTaskServer.Loc.passed, hempty] using hne
    simp only [CellTaskServer.Loc.passed, List.drop_zero, List.isEmpty_eq_false_iff.mpr htasks]
    decide
  | move =>
    have hboth : q.tasks ++ q.taskBuf ≠ [] := hne
    simp only [CellTaskServer.Loc.passed, List.drop_zero, List.isEmpty_eq_false_iff.mpr hboth]
    cases q.tasks.isEmpty <;> decide
  | checkEmpty hempty => simp [distance, CellTaskServer.Loc.passed, hempty]
  | runEnd hnil => simp [distance, CellTaskServer.Loc.passed, hnil]
  | drainEnd | draining => exact hw.elim
  | enter | test | check =>
    simp only [CellTaskServer.Loc.passed]
    cases (q.tasks.drop 0).isEmpty <;> decide
  | @running _ k =>
    simp only [CellTaskServer.Loc.passed]
    cases (q.tasks.drop (k + 1)).isEmpty
    · exact Nat.zero_lt_one
    · exact Nat.lt_succ_self 8

/-- The worker can take a step. -/
theorem exists_step_worker (h : s.worker.loc.InLoop) : ∃ t, step s .worker = some t := by
  cases hbody : s.worker.body with
  | cons u body => exact ⟨_, by rw [step, workerStep, hbody]⟩
  | nil =>
    have hrun := s.log.taskServer.onRun_cases true s.worker.loc
    simp only [step, workerStep, hbody]
    generalize s.log.taskServer.onRun true s.worker.loc = r at hrun
    obtain ⟨q, started, next⟩ := r
    obtain ⟨w, rfl, -⟩ := h.onRun hrun
    exact ⟨_, rfl⟩

/-- **The worker gets on** until it is about to use the file. -/
theorem Exposed.worker (h : Exposed c s) (hnot : ¬ ∃ u ∈ s.worker.body.head?, u.1 = c) :
    ∃ t, step s .worker = some t ∧ Exposed c t ∧ rank t < rank s := by
  obtain ⟨t, ht⟩ := exists_step_worker h.inLoop
  refine ⟨t, ht, ?_⟩
  cases step_worker ht with
  | @use u body hbody =>
    rw [hbody] at hnot
    refine ⟨⟨h.inLoop, h.not_open, h.used.imp_left ?_⟩, ?_⟩
    · rintro ⟨v, hv, rfl⟩
      rw [hbody] at hv
      obtain rfl | hv := List.mem_cons.mp hv
      · exact absurd ⟨_, rfl, rfl⟩ hnot
      · exact ⟨v, hv, rfl⟩
    · simp only [rank, hbody, List.length_cons]
      omega
  | @onRun q started w hbody hrun =>
    obtain ⟨_, ⟨⟩, hw⟩ := h.inLoop.onRun hrun
    have hwaiting := CellTaskServer.waiting_onRun hrun h.inLoop hw
    have hsame := s.log.sameFiles_taskServer q
    have hused : ∃ task ∈ s.log.taskServer.waiting s.worker.loc, task.channel = c := by
      refine h.used.resolve_left ?_
      rintro ⟨u, hu, -⟩
      rw [hbody] at hu
      cases hu
    refine ⟨⟨hw, hsame.hasOpen_iff.not.mpr h.not_open, ?_⟩, ?_⟩
    · obtain ⟨task, htask, rfl⟩ := hused
      rw [hwaiting, List.mem_append] at htask
      refine htask.imp (fun hstarted => ?_) fun hrest => ⟨task, hrest, rfl⟩
      exact ⟨(task.channel, .fflush), List.mem_flatMap.mpr ⟨task, hstarted, by simp [LogTask.body]⟩,
        rfl⟩
    · obtain ⟨task, htask, -⟩ := hused
      have hlength := congrArg List.length hwaiting
      rw [List.length_append] at hlength
      cases started with
      | none =>
        have hlt := distance_onRun hrun h.inLoop (List.ne_nil_of_mem htask)
        simp only [rank, hbody, Option.toList_none, List.flatMap_nil, List.length_nil] at hlength ⊢
        omega
      | some task =>
        -- the bound of the distance is small against a whole task
        have hle := distance_le (q.tasks.drop w.passed.1).isEmpty w
        simp only [rank, hbody, Option.toList_some, List.flatMap_cons, List.flatMap_nil,
          List.append_nil, List.length_nil, LogTask.body,
          List.length_cons] at hlength ⊢
        omega

theorem Exposed.exists_run (n : ℕ) (h : Exposed c s) :
    ∃ is u, (logTasks n).run s is = some u ∧ ¬ UsesOpen u := by
  obtain ⟨k, u, hu, hexposed, ⟨v, hv, rfl⟩⟩ := Machine.exists_iterate_of_rank
    (M := logTasks n) (Q := fun t => ∃ u ∈ t.worker.body.head?, u.1 = c) (i := .worker) rank
    (fun t ht hnot => ht.worker hnot) h
  exact ⟨List.replicate k .worker, u, hu, fun hopen => hexposed.not_open (hopen v hv)⟩

/-- What is pending with no open file is used. -/
theorem exists_run_of_pending (n : ℕ) (hloop : s.worker.loc.InLoop) (hnot : ¬ HasOpen s.log c)
    (hc : c ∈ s.pending) : ∃ is u, (logTasks n).run s is = some u ∧ ¬ UsesOpen u := by
  obtain hbody | hwaiting | ⟨l, hl, hadding⟩ := mem_pending.mp hc
  · exact Exposed.exists_run n ⟨hloop, hnot, .inl hbody⟩
  · exact Exposed.exists_run n ⟨hloop, hnot, .inr hwaiting⟩
  · cases l with
    | addTask task next =>
      obtain ⟨j, hj⟩ := List.mem_iff_getElem?.mp hl
      have hstep : (logTasks n).step s (.caller j false) = some { s with
          log := s.log.addTask task, callers := s.callers.set j next.loc } := by
        simp only [logTasks, step, hj, Option.bind_some, callStep, Option.map_some]
      have hsame := s.log.sameFiles_addTask task
      have htask : task ∈ (s.log.taskServer.addTask task).waiting s.worker.loc := by
        cases hw : s.worker.loc with
        | drain | draining | clear => exact (hw ▸ hloop).elim
        | _ =>
          exact List.mem_append_right _ (List.mem_append_right _ (List.mem_singleton.mpr rfl))
      have hexposed : Exposed c { s with
          log := s.log.addTask task, callers := s.callers.set j next.loc } :=
        ⟨hloop, hsame.hasOpen_iff.not.mpr hnot,
          .inr ⟨task, htask, (List.mem_singleton.mp hadding).symm⟩⟩
      obtain ⟨is, u, hu, hbad⟩ := hexposed.exists_run n
      refine ⟨.caller j false :: is, u, ?_, hbad⟩
      rw [Machine.run_cons, hstep, Option.bind_some]
      exact hu
    | _ => cases hadding

/-- A thread that is about to append nothing leaves what is pending, when it appends nothing. -/
theorem mem_pending_set (hl : s.callers[j]? = some l) (hadding : l.adding = [])
    (hserver : log'.taskServer = s.log.taskServer) (hc : c ∈ s.pending) :
    c ∈ State.pending { s with log := log', callers := s.callers.set j l' } := by
  rw [mem_pending] at hc ⊢
  rw [hserver]
  refine hc.imp_right (Or.imp_right ?_)
  rintro ⟨m, hm, hmc⟩
  obtain ⟨k, hk⟩ := List.mem_iff_getElem?.mp hm
  have hne : j ≠ k := by
    rintro rfl
    rw [hl, Option.some.injEq] at hk
    rw [← hk, hadding] at hmc
    cases hmc
  exact ⟨m, List.mem_of_getElem? ((List.getElem?_set_ne hne).trans hk), hmc⟩

/-- **A disturbed step** can be followed by a use of a file that is not open. -/
theorem exists_run_of_disturbed (n : ℕ) (hloop : s.worker.loc.InLoop) {i : Act}
    (hstep : (logTasks n).step s i = some t) (hbad : ¬ Undisturbed s i) :
    ∃ is u, (logTasks n).run t is = some u ∧ ¬ UsesOpen u := by
  cases i with
  | call | worker => exact absurd trivial hbad
  | caller j ok =>
    obtain ⟨l, log', l', hl, hcall, rfl⟩ := step_caller hstep
    have hcases : (∃ c ∈ l.takes ok, c ∈ s.pending) ∨ ∃ c ∈ l.finds s.log, ¬ HasOpen s.log c := by
      by_contra hnone
      simp only [not_or, not_exists, not_and, not_not] at hnone
      refine hbad fun m hm => ?_
      obtain rfl : l = m := Option.some.inj (hl.symm.trans hm)
      exact hnone
    obtain ⟨c, htaken, hc⟩ | ⟨c, hfound, hnot⟩ := hcases
    · -- the file is taken from what is pending
      obtain ⟨hnot, hadding, hserver⟩ := hcall.taken htaken
      exact exists_run_of_pending n hloop hnot (mem_pending_set hl hadding hserver hc)
    · -- `Info` has found a file that is closed
      obtain ⟨rfl, hadding⟩ := hcall.found hfound
      have hj := (List.getElem?_eq_some_iff.mp hl).1
      refine exists_run_of_pending n hloop hnot (mem_pending.mpr (.inr (.inr ⟨l', ?_, hadding⟩)))
      exact List.mem_of_getElem? (List.getElem?_set_self hj)

theorem inLoop_of_reachable (n : ℕ) (h : (logTasks n).Reachable s) : s.worker.loc.InLoop := by
  refine h.invariant (I := fun s => s.worker.loc.InLoop) trivial fun s i t hs hstep => ?_
  cases i with
  | call j call =>
    rw [step_call hstep]
    exact hs
  | caller j ok =>
    obtain ⟨l, log', l', -, -, rfl⟩ := step_caller hstep
    exact hs
  | worker =>
    cases step_worker hstep with
    | use => exact hs
    | onRun _ hrun =>
      obtain ⟨_, ⟨⟩, hl⟩ := hs.onRun hrun
      exact hl

/-! ## The law -/

/-- **When the tasks of a log find their files open.** -/
structure Law (n : ℕ) : Prop where
  /-- In a run of undisturbed steps they always do. -/
  undisturbed : ∀ s, (logTasks n).ReachWithin Undisturbed s → UsesOpen s
  /-- Behind any other step there is a run in which one does not. -/
  disturbed : ∀ s t i, (logTasks n).Reachable s → (logTasks n).step s i = some t →
    ¬ Undisturbed s i → ∃ is u, (logTasks n).run t is = some u ∧ ¬ UsesOpen u

/-- **The law of the log's tasks**, for any number of threads. -/
theorem logTasks_law (n : ℕ) : Law n where
  undisturbed _ hs := usesOpen_of_reachWithin n hs
  disturbed _ _ _ hs hstep hbad :=
    exists_run_of_disturbed n (inLoop_of_reachable n hs) hstep hbad

/-- One thread opens a file and logs a warning. -/
def warningTrace : List Act :=
  [.call 0 (.setLogPath "a.log" "w"), .caller 0 true, .caller 0 true, .caller 0 true,
    .call 0 (.info warningMsg "leave\n"), .caller 0 true, .caller 0 true]

/-- It sets the path again, to a file that cannot be opened. -/
def reopenTrace : List Act :=
  [.call 0 (.setLogPath "b/c.log" "w"), .caller 0 true, .caller 0 true, .caller 0 true,
    .caller 0 true, .caller 0 false]

/-- The worker comes to the task. -/
def workerTrace : List Act := [.worker, .worker, .worker, .worker, .worker]

/-- The path is set when the worker is through with the warning, and another warning is logged.
The worker writes it to the new file. -/
theorem logTasks_law_warning : ∃ s, (logTasks 1).ReachWithin Undisturbed s ∧
    s.worker.body = LogTask.body ⟨.warning, "leave\n"⟩ ∧ s.log.logFile = some ⟨1⟩ ∧
      UsesOpen s := by
  obtain ⟨s, hs, hp⟩ := Machine.exists_reachWithin_of_run (M := logTasks 1) Undisturbed
    (List.flatten [warningTrace, workerTrace, List.replicate 5 .worker,
      [.call 0 (.setLogPath "b.log" "w"), .caller 0 true, .caller 0 true, .caller 0 true,
        .caller 0 true, .caller 0 true, .caller 0 true],
      warningTrace.drop 4, workerTrace])
    (fun s => decide (s.worker.body = LogTask.body ⟨.warning, "leave\n"⟩ ∧
      s.log.logFile = some ⟨1⟩)) (by decide)
  obtain ⟨hbody, hfile⟩ := of_decide_eq_true hp
  exact ⟨s, hs, hbody, hfile, (logTasks_law 1).undisturbed s hs⟩

/-- **The warning is written to a null pointer**, when the path is set before the worker has come
to it. -/
theorem logTasks_law_reopen :
    (¬ ∀ n s, (logTasks n).Reachable s → UsesOpen s) ∧
      ∃ s, (logTasks 1).Reachable s ∧ s.worker.body = LogTask.body ⟨.warning, "leave\n"⟩ ∧
        s.log.logFile = none := by
  obtain ⟨s, hs, hp⟩ := Machine.exists_reachable_of_run (M := logTasks 1)
    (warningTrace ++ reopenTrace ++ workerTrace)
    (fun s => decide (s.worker.body = LogTask.body ⟨.warning, "leave\n"⟩ ∧ s.log.logFile = none))
    (by decide)
  obtain ⟨hbody, hnull⟩ := of_decide_eq_true hp
  refine ⟨fun h => ?_, s, hs, hbody, hnull⟩
  have hopen := h 1 s hs (.warning, .fprintfStamp) (by rw [hbody]; rfl)
  exact not_hasOpen_of_none (show s.log.file .warning = none from hnull) hopen

end LogTasks
end EasyTcpServer
