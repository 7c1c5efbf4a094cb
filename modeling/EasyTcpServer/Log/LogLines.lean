import EasyTcpServer.Log.LogStamp
import EasyTcpServer.Log.LogTasks

/-!
# The lines in the files of a log

The machine of `LogThreads` with what the worker writes: the stamp and the text of a task go to
the file that the pointer of the channel has at that moment, so a line is three uses of the
pointer.

* `Settled`: the calls of `Undisturbed`, and no file is opened for a channel while something is
  left that will write to it.  A second thread in a setter does that: the new file takes the place
  of one that is open, and the rest of a line goes there.
* `Inv`: every file holds whole lines, and behind them what is written so far of one line.
* `logLines_law`: the lines, whole and in the order of the appends, are what the files hold.

`_date` and `_time` have at least the ten characters that were asked for; how many they have is
the matter of `Log.LogStamp`.
-/

namespace EasyTcpServer

open Format

namespace LogLines

/-- The threads, what is in `_date` and `_time`, and what was written. -/
structure State (nDate nTime : ℕ) where
  threads : LogTasks.State
  stamps : Stamps nDate nTime
  contents : File → List Char
  /-- The tasks, in the order in which they were appended. -/
  appended : List LogTask

/-- A step of the threads, with the times that the clock gives for the date and for the time. -/
structure Act where
  act : LogTasks.Act
  today : Tm
  now : Tm
  deriving DecidableEq

section Step

variable {nDate nTime : ℕ} (s : State nDate nTime)

def State.write (f : File) (text : List Char) : State nDate nTime :=
  { s with contents := Function.update s.contents f (s.contents f ++ text) }

/-- A use of the file of a channel.  A null pointer has no use. -/
def State.use (c : Channel) (today now : Tm) : FileUse → Option (State nDate nTime)
  | .fprintfStamp =>
    (s.threads.log.file c).bind fun f =>
      (s.stamps.fprintfStamp c today now).map fun p => { s.write f p.2 with stamps := p.1 }
  | .fprintf pStr => (s.threads.log.file c).map fun f => s.write f pStr.toList
  | .fflush => (s.threads.log.file c).map fun _ => s

/-- The task that a thread is about to append. -/
def tasks : LogTasks.Loc → List LogTask
  | .addTask task _ => [task]
  | _ => []

/-- What a step does besides the step of the threads. -/
def State.effect (today now : Tm) : LogTasks.Act → Option (State nDate nTime)
  | .call _ _ => some s
  | .caller j _ =>
    some { s with appended := s.appended ++ s.threads.callers[j]?.toList.flatMap tasks }
  | .worker =>
    match s.threads.worker.body with
    | [] => some s
    | u :: _ => s.use u.1 today now u.2

def step (i : Act) : Option (State nDate nTime) :=
  (LogTasks.step s.threads i.act).bind fun t =>
    (s.effect i.today i.now i.act).map fun u => { u with threads := t }

end Step

end LogLines

open LogLines in
/-- A new log and `n` threads; what the arrays hold is whatever lies in memory. -/
def logLines {nDate nTime : ℕ} (n : ℕ) (stamps : Stamps nDate nTime) :
    Machine (State nDate nTime) Act where
  init := ⟨(logTasks n).init, stamps, fun _ => [], []⟩
  step := step

namespace LogLines

/-- The channel whose pointer is about to get a file. -/
def opens : LogTasks.Loc → Option Channel
  | .fopen p => some p.own
  | _ => none

/-- The calls are undisturbed, and no file is opened for a channel that something is left for. -/
def Settled {nDate nTime : ℕ} (s : State nDate nTime) (i : Act) : Prop :=
  LogTasks.Undisturbed s.threads i.act ∧
    match i.act with
    | .caller j _ => ∀ l ∈ s.threads.callers[j]?, ∀ c ∈ opens l, c ∉ s.threads.pending
    | _ => True

instance {nDate nTime : ℕ} (s : State nDate nTime) : (i : Act) → Decidable (Settled s i)
  | ⟨.caller j ok, _, _⟩ =>
    inferInstanceAs (Decidable (LogTasks.Undisturbed s.threads (.caller j ok) ∧
      ∀ l ∈ s.threads.callers[j]?, ∀ c ∈ opens l, c ∉ s.threads.pending))
  | ⟨.call j call, _, _⟩ =>
    inferInstanceAs (Decidable (LogTasks.Undisturbed s.threads (.call j call) ∧ True))
  | ⟨.worker, _, _⟩ => inferInstanceAs (Decidable (LogTasks.Undisturbed s.threads .worker ∧ True))

/-! ## Lines -/

/-- A line that was written: the file, the times of its stamp, and its task. -/
structure Line where
  file : File
  today : Tm
  now : Tm
  task : LogTask
  deriving DecidableEq

namespace Line

variable (line : Line)

def stamp : List Char := stampText line.task.channel line.today line.now

def text : List Char := line.stamp ++ line.task.pStr.toList

end Line

variable {nDate nTime : ℕ} {s t : State nDate nTime} {f g : File} {c : Channel}
  {lines : List Line} {line : Line} {log log' : CellLog} {ok : Bool} {l l' : LogTasks.Loc}
  {xs ys : List Char}

/-- The lines of a file, one behind the other. -/
def contentsOf (lines : List Line) (f : File) : List Char :=
  (lines.filter fun line => line.file = f).flatMap Line.text

/-- A text that is in one file. -/
def only (f : File) (text : List Char) (g : File) : List Char := if g = f then text else []

theorem only_append : only f (xs ++ ys) g = only f xs g ++ only f ys g := by
  unfold only
  split_ifs <;> rfl

theorem contentsOf_append : contentsOf (lines ++ [line]) g =
    contentsOf lines g ++ only line.file line.text g := by
  unfold contentsOf only
  rw [List.filter_append, List.flatMap_append]
  by_cases hg : line.file = g
  · rw [List.filter_singleton, if_pos hg.symm, decide_eq_true hg]
    simp
  · rw [List.filter_singleton, if_neg (Ne.symm hg), decide_eq_false hg]
    rfl

theorem contents_write : (s.write f xs).contents g = s.contents g ++ only f xs g := by
  unfold only State.write
  by_cases hg : g = f
  · rw [if_pos hg, hg]
    exact Function.update_self ..
  · rw [if_neg hg, List.append_nil]
    exact Function.update_of_ne hg _ _

/-! ## A line that is being written -/

/-- What is left of a task, the task, and what was written of its line. -/
inductive Progress (log : CellLog) :
    List (Channel × FileUse) → Option LogTask → (File → List Char) → Prop where
  | idle : Progress log [] none fun _ => []
  | started (task : LogTask) : Progress log task.body (some task) fun _ => []
  | stamped (line : Line) : log.file line.task.channel = some line.file →
      Progress log (line.task.body.drop 1) (some line.task) (only line.file line.stamp)
  | told (line : Line) : log.file line.task.channel = some line.file →
      Progress log (line.task.body.drop 2) (some line.task) (only line.file line.text)

variable {body : List (Channel × FileUse)} {current : Option LogTask} {rest : File → List Char}

/-- The pointers of the channels that are still to be used may not change. -/
theorem Progress.mono (h : Progress log body current rest)
    (hsame : ∀ u ∈ body, log'.file u.1 = log.file u.1) : Progress log' body current rest := by
  cases h with
  | idle => exact .idle
  | started task => exact .started task
  | stamped line hfile =>
    exact .stamped line ((hsame (line.task.channel, .fflush) (by simp [LogTask.body])).trans hfile)
  | told line hfile =>
    exact .told line ((hsame (line.task.channel, .fflush) (by simp [LogTask.body])).trans hfile)

/-- What is written of a line is in the file of its channel, whose pointer will be used again. -/
theorem Progress.part (h : Progress log body current rest) (hf : rest f ≠ []) :
    ∃ line : Line, line.file = f ∧ current = some line.task ∧ rest f <+: line.text ∧
      log.file line.task.channel = some line.file ∧ (line.task.channel, .fflush) ∈ body := by
  cases h with
  | idle | started => exact absurd rfl hf
  | stamped line hfile =>
    obtain rfl : f = line.file := by_contra fun hne => hf (if_neg hne)
    refine ⟨line, rfl, rfl, ?_, hfile, by simp [LogTask.body]⟩
    rw [only, if_pos rfl]
    exact List.prefix_append _ _
  | told line hfile =>
    obtain rfl : f = line.file := by_contra fun hne => hf (if_neg hne)
    have hall : only line.file line.text line.file = line.text := if_pos rfl
    exact ⟨line, rfl, rfl, ⟨[], by rw [hall, List.append_nil]⟩, hfile, by simp [LogTask.body]⟩

/-! ## The invariant -/

/-- Whole lines in the files, and what is written of one more. -/
structure Written (s : State nDate nTime) (lines : List Line) (current : Option LogTask)
    (rest : File → List Char) : Prop where
  contents : ∀ f, s.contents f = contentsOf lines f ++ rest f
  progress : Progress s.threads.log s.threads.worker.body current rest
  /-- No task is lost, and none overtakes another one. -/
  order : lines.map Line.task ++ (current.toList ++
    s.threads.log.taskServer.waiting s.threads.worker.loc) = s.appended
  /-- A file that a line was written to is nobody else's. -/
  own : ∀ line ∈ lines, line.file.number < s.threads.log.stdio.opened ∧
    ∀ c, s.threads.log.file c = some line.file → c = line.task.channel
  channel : ∀ line ∈ lines, ∀ line' ∈ lines, line.file = line'.file →
    line.task.channel = line'.task.channel

structure Inv (s : State nDate nTime) : Prop where
  threads : LogTasks.Inv s.threads
  written : ∃ lines current rest, Written s lines current rest

/-! ## Calls -/

/-- The pointer of a channel is left by a step that neither takes its file nor opens one. -/
theorem file_of_callStep (h : LogTasks.CallStep log ok l log' l') (htakes : c ∉ l.takes ok)
    (hopens : c ∉ opens l) : log'.file c = log.file c := by
  cases h with
  | quiet hsame => exact hsame.file c
  | finds => rfl
  | addTask task next => exact (log.sameFiles_addTask task).file c
  | fclose p => exact log.file_fclose p.own c
  | setNull p => exact log.file_setFile_of_ne none fun hc => htakes (hc ▸ rfl)
  | fopen p => exact log.file_fopen_of_ne ok fun hc => hopens (hc ▸ rfl)

/-- A pointer that has a file behind a step had it before, or the file is new. -/
theorem file_old_or_new (h : LogTasks.CallStep log ok l log' l') (hfiles : CellLog.Files log)
    (hf : log'.file c = some f) : log.file c = some f ∨ f.number = log.stdio.opened := by
  cases h with
  | quiet hsame => exact .inl ((hsame.file c).symm.trans hf)
  | finds => exact .inl hf
  | addTask task next => exact .inl (((log.sameFiles_addTask task).file c).symm.trans hf)
  | fclose p => exact .inl ((log.file_fclose p.own c).symm.trans hf)
  | setNull p =>
    by_cases hc : c = p.own
    · rw [hc, CellLog.file_setFile] at hf
      cases hf
    · rw [log.file_setFile_of_ne none hc] at hf
      exact .inl hf
  | fopen p =>
    obtain ⟨-, -, rfl⟩ | ⟨hold, -⟩ := hfiles.mem_fopen hf
    · exact .inr rfl
    · exact .inl hold

theorem opened_mono (h : LogTasks.CallStep log ok l log' l') :
    log.stdio.opened ≤ log'.stdio.opened := by
  cases h with
  | quiet hsame => exact hsame.opened.ge
  | fopen p => exact (CellLog.opened_fopen log p.own ok).ge.trans' (Nat.le_add_right _ _)
  | setNull p => rw [CellLog.stdio_setFile]
  | finds | addTask | fclose => exact le_rfl

theorem tasks_of_adding (h : l.adding = []) : tasks l = [] := by
  cases l with
  | addTask => cases h
  | _ => rfl

/-- What a step appends waits behind the others. -/
theorem waiting_callStep (h : LogTasks.CallStep log ok l log' l') {w : CellTaskServer.Loc}
    (hw : w.InLoop) :
    log'.taskServer.waiting w = log.taskServer.waiting w ++ tasks l := by
  cases h with
  | quiet _ hserver _ _ hadding => rw [tasks_of_adding hadding, hserver, List.append_nil]
  | finds _ _ hadding => rw [tasks_of_adding hadding, List.append_nil]
  | addTask task next =>
    have hpassed : w.passed.2 = 0 := by
      cases w <;> first | rfl | exact hw.elim
    simp only [CellTaskServer.waiting, hpassed, List.drop_zero, List.append_assoc]
    rfl
  | fclose p => exact (List.append_nil _).symm
  | setNull p =>
    rw [CellLog.taskServer_setFile]
    exact (List.append_nil _).symm
  | fopen p =>
    rw [CellLog.taskServer_fopen]
    exact (List.append_nil _).symm

theorem Written.caller {j : ℕ} (h : Written s lines current rest) (hinv : LogTasks.Inv s.threads)
    (hok : LogTasks.Undisturbed s.threads (.caller j ok))
    (hopens : ∀ l ∈ s.threads.callers[j]?, ∀ c ∈ opens l, c ∉ s.threads.pending)
    (hl : s.threads.callers[j]? = some l) (hcall : LogTasks.CallStep s.threads.log ok l log' l') :
    Written { s with
      threads := { s.threads with log := log', callers := s.threads.callers.set j l' }
      appended := s.appended ++ tasks l } lines current rest := by
  obtain ⟨htakes, -⟩ := hok l hl
  have hfile : ∀ u ∈ s.threads.worker.body, log'.file u.1 = s.threads.log.file u.1 := by
    intro u hu
    have hpending : u.1 ∈ s.threads.pending := LogTasks.mem_pending.mpr (.inl ⟨u, hu, rfl⟩)
    exact file_of_callStep hcall (fun hc => htakes u.1 hc hpending)
      fun hc => hopens l hl u.1 hc hpending
  refine ⟨h.contents, h.progress.mono hfile, ?_, fun line hline => ?_, h.channel⟩
  · show _ ++ (_ ++ log'.taskServer.waiting s.threads.worker.loc) = s.appended ++ tasks l
    rw [waiting_callStep hcall hinv.inLoop, ← h.order, List.append_assoc, List.append_assoc]
  · obtain ⟨hlt, hown⟩ := h.own line hline
    refine ⟨hlt.trans_le (opened_mono hcall), fun c hc => ?_⟩
    rcases file_old_or_new hcall hinv.files hc with hold | hnew
    · exact hown c hold
    · exact absurd hnew hlt.ne

/-! ## The worker -/

theorem Written.use {u : Channel × FileUse} {today now : Tm}
    (h : Written s lines current rest) (hinv : LogTasks.Inv s.threads)
    (hbody : s.threads.worker.body = u :: body) (ht : s.use u.1 today now u.2 = some t) :
    ∃ lines current rest, Written { t with
      threads := { s.threads with worker := { s.threads.worker with body := body } } }
        lines current rest := by
  have hprogress := h.progress
  rw [hbody] at hprogress
  cases hprogress with
  | started task =>
    -- the stamp
    obtain ⟨f, hf, ht⟩ := Option.bind_eq_some_iff.mp ht
    obtain ⟨p, hp, rfl⟩ := Option.map_eq_some_iff.mp ht
    refine ⟨lines, some task, only f (stampText task.channel today now), ⟨fun g => ?_,
      .stamped ⟨f, today, now, task⟩ hf, h.order, h.own, h.channel⟩⟩
    show (s.write f p.2).contents g = _
    rw [contents_write, h.contents, List.append_nil, fprintfStamp_eq hp]
  | stamped line hfile =>
    -- the text
    obtain ⟨f, hf, rfl⟩ := Option.map_eq_some_iff.mp ht
    obtain rfl : line.file = f := Option.some.inj (hfile.symm.trans hf)
    refine ⟨lines, some line.task, only line.file line.text, ⟨fun g => ?_,
      .told line hfile, h.order, h.own, h.channel⟩⟩
    show (s.write line.file line.task.pStr.toList).contents g = _
    rw [contents_write, h.contents, Line.text, only_append, List.append_assoc]
  | told line hfile =>
    -- the line is whole
    obtain ⟨f, -, rfl⟩ := Option.map_eq_some_iff.mp ht
    have hnumber := hinv.files.number line.task.channel line.file hfile
    have happart (c : Channel) (hc : s.threads.log.file c = some line.file) :
        c = line.task.channel := hinv.files.apart c line.task.channel line.file hc hfile
    refine ⟨lines ++ [line], none, fun _ => [], ⟨fun g => ?_, .idle, ?_, fun m hm => ?_,
      fun m hm m' hm' hmm => ?_⟩⟩
    · show s.contents g = _
      rw [h.contents, contentsOf_append, List.append_nil]
    · have horder := h.order
      rw [List.map_append, List.append_assoc]
      exact horder
    · rcases List.mem_append.mp hm with hold | hnew
      · exact h.own m hold
      · rw [List.mem_singleton.mp hnew]
        exact ⟨hnumber, happart⟩
    · rcases List.mem_append.mp hm with hold | hnew <;>
        rcases List.mem_append.mp hm' with hold' | hnew'
      · exact h.channel m hold m' hold' hmm
      · rw [List.mem_singleton.mp hnew'] at hmm ⊢
        exact ((h.own m hold).2 _ (hmm ▸ hfile)).symm
      · rw [List.mem_singleton.mp hnew] at hmm ⊢
        exact (h.own m' hold').2 _ (hmm ▸ hfile)
      · rw [List.mem_singleton.mp hnew, List.mem_singleton.mp hnew']

theorem Written.onRun {q : CellTaskServer LogTask} {started : Option LogTask}
    {w : CellTaskServer.Loc} (h : Written s lines current rest) (hinv : LogTasks.Inv s.threads)
    (hbody : s.threads.worker.body = [])
    (hrun : CellTaskServer.OnRun s.threads.log.taskServer true s.threads.worker.loc q started
      (.goto w)) :
    ∃ current rest, Written { s with
      threads := { s.threads with
        log := { s.threads.log with taskServer := q }
        worker := ⟨w, started.toList.flatMap LogTask.body⟩ } } lines current rest := by
  obtain ⟨_, ⟨⟩, hw⟩ := hinv.inLoop.onRun hrun
  have hwaiting := CellTaskServer.waiting_onRun hrun hinv.inLoop hw
  have hsame := s.threads.log.sameFiles_taskServer q
  have hprogress := h.progress
  have horder := h.order
  rw [hbody] at hprogress
  cases hprogress with
  | idle =>
    rw [hwaiting] at horder
    refine ⟨started, fun _ => [], ⟨h.contents, ?_, horder, fun line hline => ?_, h.channel⟩⟩
    · cases started with
      | none => exact .idle
      | some task =>
        show Progress _ (task.body ++ []) _ _
        rw [List.append_nil]
        exact .started task
    · obtain ⟨hlt, hown⟩ := h.own line hline
      exact ⟨hlt, fun c hc => hown c ((hsame.file c).symm.trans hc)⟩

/-! ## The law -/

theorem Inv.step {i : Act} (h : Inv s) (hok : Settled s i) (hstep : step s i = some t) : Inv t := by
  obtain ⟨lines, current, rest, hwritten⟩ := h.written
  obtain ⟨a, today, now⟩ := i
  obtain ⟨threads, hthreads, heffect⟩ := Option.bind_eq_some_iff.mp hstep
  obtain ⟨u, hu, rfl⟩ := Option.map_eq_some_iff.mp heffect
  refine ⟨h.threads.step (j := 0) hok.1 hthreads, ?_⟩
  cases a with
  | call j call =>
    obtain rfl := Option.some.inj hu
    obtain rfl := LogTasks.step_call hthreads
    exact ⟨lines, current, rest, hwritten.contents, hwritten.progress, hwritten.order,
      hwritten.own, hwritten.channel⟩
  | caller j ok =>
    obtain rfl := Option.some.inj hu
    obtain ⟨l, log', l', hl, hcall, rfl⟩ := LogTasks.step_caller hthreads
    have hcaller := hwritten.caller h.threads hok.1 hok.2 hl hcall
    refine ⟨lines, current, rest, ?_⟩
    rw [hl, Option.toList_some, List.flatMap_singleton]
    exact hcaller
  | worker =>
    have hworker := LogTasks.step_worker hthreads
    cases hworker with
    | @use u' body hbody =>
      rw [State.effect, hbody] at hu
      exact hwritten.use h.threads hbody hu
    | onRun hbody hrun =>
      rw [State.effect, hbody] at hu
      obtain rfl := Option.some.inj hu
      obtain ⟨current, rest, hrun⟩ := hwritten.onRun h.threads hbody hrun
      exact ⟨lines, current, rest, hrun⟩

theorem inv_init (n : ℕ) (stamps : Stamps nDate nTime) : Inv (logLines n stamps).init :=
  ⟨LogTasks.inv_init n, [], none, fun _ => [], fun _ => rfl, .idle, rfl,
    fun _ h => absurd h List.not_mem_nil, fun _ h => absurd h List.not_mem_nil⟩

/-- What the files of a log hold: the lines that were written, and what there is of one more. -/
structure Law (s : State nDate nTime) (lines : List Line) (current : Option LogTask)
    (rest : File → List Char) : Prop where
  contents : ∀ f, s.contents f = contentsOf lines f ++ rest f
  /-- A part of a line is in the open file of the task that the worker is in. -/
  part : ∀ f, rest f ≠ [] → s.threads.log.stdio.IsOpen f ∧
    ∃ line : Line, line.file = f ∧ current = some line.task ∧ rest f <+: line.text
  /-- No task is lost, and none overtakes another one. -/
  order : lines.map Line.task ++ (current.toList ++
    s.threads.log.taskServer.waiting s.threads.worker.loc) = s.appended
  /-- A file has the lines of one channel. -/
  channel : ∀ line ∈ lines, ∀ line' ∈ lines, line.file = line'.file →
    line.task.channel = line'.task.channel
  /-- What was written is read back. -/
  read : ∀ line ∈ lines, readLine line.text =
    some (line.today.date, line.now.time, line.task.channel.level, line.task.pStr.toList)

theorem Inv.law (h : Inv s) : ∃ lines current rest, Law s lines current rest := by
  obtain ⟨lines, current, rest, hwritten⟩ := h.written
  refine ⟨lines, current, rest, hwritten.contents, fun f hrest => ?_, hwritten.order,
    hwritten.channel, fun line _ => readLine_stampText ..⟩
  obtain ⟨line, rfl, hcurrent, hle, hfile, hmem⟩ := hwritten.progress.part hrest
  obtain ⟨g, hg, hopen⟩ := h.threads.ready line.task.channel
    (LogTasks.mem_pending.mpr (.inl ⟨_, hmem, rfl⟩))
  obtain rfl : line.file = g := Option.some.inj (hfile.symm.trans hg)
  exact ⟨hopen, line, rfl, hcurrent, hle⟩

end LogLines
end EasyTcpServer
