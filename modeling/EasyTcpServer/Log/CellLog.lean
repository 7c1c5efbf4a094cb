import EasyTcpServer.Task.CellTaskServer

/-!
# `Cell_Log`

The log of the process has two files: `_logFile` for warnings and `_logErrorFile` for errors.
`Info` tests the pointer of the file and appends a task for the worker of a task server; the task
reads the pointer once more when it runs.

`setLogPath` and `setErrorLogPath` are the same statements, each on its own pointer, up to the
last test.  Both test `_logFile` there.

A file is the number of the `fopen` that has opened it.  So two files are never the same, also
when the library uses the memory of the one for the other.  What is kept of the library is how
often `fopen` has succeeded, the arguments of all calls of `fclose`, and what was printed.

The date and the time of a message, `_msg_Level`, which nothing reads, and what the task server
prints are left out.
-/

namespace EasyTcpServer

/-! ## The library -/

/-- A file, by the number of its `fopen`. -/
@[ext] structure File where
  number : ℕ
  deriving DecidableEq, Repr

/-- What was written to the standard output. -/
inductive Printed where
  | printf (text : String)
  /-- With `Debug_Printf`: only in a build with `_DEBUG`. -/
  | debugPrintf (text : String)
  deriving DecidableEq, Repr

structure Stdio where
  /-- How many calls of `fopen` have succeeded. -/
  opened : ℕ
  /-- What `fclose` was called with. -/
  closed : List (Option File)
  printed : List Printed
  deriving DecidableEq, Repr

namespace Stdio

variable (io : Stdio)

/-- `fopen`; `ok` says whether it succeeds. -/
def fopen (ok : Bool) : Option File × Stdio :=
  if ok then (some ⟨io.opened⟩, { io with opened := io.opened + 1 }) else (none, io)

def fclose (file : Option File) : Stdio := { io with closed := io.closed ++ [file] }

def print (p : Printed) : Stdio := { io with printed := io.printed ++ [p] }

/-- The file was opened and not closed. -/
def IsOpen (file : File) : Prop := file.number < io.opened ∧ some file ∉ io.closed

instance (file : File) : Decidable (io.IsOpen file) := by
  unfold IsOpen
  infer_instance

end Stdio

/-! ## The log -/

/-- `Info_Msg`. -/
def infoMsg : ℤ := 0

/-- `Debug_Msg`. -/
def debugMsg : ℤ := 1

/-- `Warning_Msg`. -/
def warningMsg : ℤ := 2

/-- `Error_Msg`. -/
def errorMsg : ℤ := 3

/-- The two kinds of messages that go to a file. -/
inductive Channel where
  | warning
  | error
  deriving DecidableEq, Repr

/-- A task of `Info`: it writes the date, the time and the level to the file of its channel, then
the text, and flushes the file. -/
structure LogTask where
  channel : Channel
  pStr : String
  deriving DecidableEq, Repr

/-- What a task does with the file, one by one; each time it reads the pointer. -/
inductive FileUse where
  | fprintfStamp
  | fprintf (pStr : String)
  | fflush
  deriving DecidableEq, Repr

/-- The body of a task. -/
def LogTask.body (task : LogTask) : List (Channel × FileUse) :=
  [(task.channel, .fprintfStamp), (task.channel, .fprintf task.pStr), (task.channel, .fflush)]

/-- A task uses the file of its channel, and no other. -/
theorem LogTask.fst_of_mem_body {task : LogTask} {u : Channel × FileUse} (h : u ∈ task.body) :
    u.1 = task.channel := by
  simp only [LogTask.body, List.mem_cons, List.not_mem_nil, or_false] at h
  obtain rfl | rfl | rfl := h <;> rfl

structure CellLog where
  taskServer : CellTaskServer LogTask
  logFile : Option File
  logErrorFile : Option File
  stdio : Stdio
  deriving DecidableEq, Repr

/-- A call of `setLogPath` or of `setErrorLogPath`: the pointer it sets, the pointer it tests at
the end, and its arguments. -/
structure SetPath where
  own : Channel
  tested : Channel
  filePath : String
  mode : String
  deriving DecidableEq, Repr

/-- What `Info` does behind its tests. -/
inductive InfoEffect where
  | print (p : Printed)
  | addTask (task : LogTask)
  | nothing
  deriving DecidableEq, Repr

namespace CellLog

/-- The constructor. -/
def new : CellLog := ⟨.new, none, none, ⟨0, [], []⟩⟩

variable (log : CellLog)

/-- The pointer to the file of a channel. -/
def file : Channel → Option File
  | .warning => log.logFile
  | .error => log.logErrorFile

def setFile (f : Option File) : Channel → CellLog
  | .warning => { log with logFile := f }
  | .error => { log with logErrorFile := f }

/-- What is printed when a pointer is null, and logged when a setter finds that it is not. -/
def notNull : String := "Cell_Log::_logFile !=nullptr \n"

/-- What is logged when a setter finds no file at its end. -/
def openFailed (filePath mode : String) : String :=
  "Cell_Log:: " ++ filePath ++ " open " ++ mode ++ " failed\n"

/-- The case of `Info` for a level that goes to a file. -/
def infoFile (c : Channel) (pStr : String) : InfoEffect :=
  if (log.file c).isSome then .addTask ⟨c, pStr⟩ else .print (.printf notNull)

/-- The tests of `Info`. -/
def infoEffect (msgLevel : ℤ) (pStr : String) : InfoEffect :=
  if msgLevel = infoMsg then .print (.printf pStr)
  else if msgLevel = debugMsg then .print (.debugPrintf pStr)
  else if msgLevel = warningMsg then log.infoFile .warning pStr
  else if msgLevel = errorMsg then log.infoFile .error pStr
  else .nothing

def print (p : Printed) : CellLog := { log with stdio := log.stdio.print p }

def addTask (task : LogTask) : CellLog := { log with taskServer := log.taskServer.addTask task }

def apply : InfoEffect → CellLog
  | .print p => log.print p
  | .addTask task => log.addTask task
  | .nothing => log

/-- `Info(msg_Level, pStr)`, with the text as it is after formatting. -/
def info (msgLevel : ℤ) (pStr : String) : CellLog := log.apply (log.infoEffect msgLevel pStr)

/-- `fclose` of a pointer. -/
def fclose (c : Channel) : CellLog := { log with stdio := log.stdio.fclose (log.file c) }

/-- A pointer set to what `fopen` returns. -/
def fopen (c : Channel) (ok : Bool) : CellLog :=
  { log with stdio := (log.stdio.fopen ok).2 }.setFile (log.stdio.fopen ok).1 c

/-- The first part of a setter: a file that is there is closed. -/
def clearPath (c : Channel) : CellLog :=
  if (log.file c).isSome then ((log.info errorMsg notNull).fclose c).setFile none c else log

/-- The last part of a setter: its test, and what it returns. -/
def checkPath (p : SetPath) : Bool × CellLog :=
  if (log.file p.tested).isNone then
    (false, log.info errorMsg (openFailed p.filePath p.mode))
  else (true, log)

/-- The shared body of the two setters, when `fopen` reports `ok`. -/
def setPath (p : SetPath) (ok : Bool) : Bool × CellLog :=
  ((log.clearPath p.own).fopen p.own ok).checkPath p

/-- `setLogPath(FilePath, mode)`. -/
def setLogPath (filePath mode : String) (ok : Bool) : Bool × CellLog :=
  log.setPath ⟨.warning, .warning, filePath, mode⟩ ok

/-- `setErrorLogPath(FilePath, mode)`: its last test is that of the other file. -/
def setErrorLogPath (filePath mode : String) (ok : Bool) : Bool × CellLog :=
  log.setPath ⟨.error, .warning, filePath, mode⟩ ok

/-- `~Cell_Log()`.  When `_TaskServer.Close()` returns, the worker has run what was left. -/
def destroy : CellLog :=
  let log := { log with taskServer := .new }
  if log.logFile.isSome then
    let log := log.info infoMsg "Cell_Log:: ~ Cell_Log end()\n"
    let log := (log.fclose .warning).fclose .error
    { log with logFile := none, logErrorFile := none }
  else log

/-! ## Pointers -/

@[simp] theorem file_setFile (f : Option File) (c : Channel) : (log.setFile f c).file c = f := by
  cases c <;> rfl

theorem file_setFile_of_ne (f : Option File) {c c' : Channel} (h : c' ≠ c) :
    (log.setFile f c).file c' = log.file c' := by
  cases c <;> cases c' <;> first | rfl | exact absurd rfl h

@[simp] theorem stdio_setFile (f : Option File) (c : Channel) :
    (log.setFile f c).stdio = log.stdio := by
  cases c <;> rfl

@[simp] theorem taskServer_setFile (f : Option File) (c : Channel) :
    (log.setFile f c).taskServer = log.taskServer := by
  cases c <;> rfl

@[simp] theorem file_fclose (c c' : Channel) : (log.fclose c).file c' = log.file c' := by
  cases c' <;> rfl

@[simp] theorem opened_fclose (c : Channel) :
    (log.fclose c).stdio.opened = log.stdio.opened := rfl

theorem closed_fclose (c : Channel) :
    (log.fclose c).stdio.closed = log.stdio.closed ++ [log.file c] := rfl

@[simp] theorem file_fopen (c : Channel) (ok : Bool) :
    (log.fopen c ok).file c = if ok then some ⟨log.stdio.opened⟩ else none := by
  cases ok <;> simp [fopen, Stdio.fopen]

theorem file_fopen_of_ne {c c' : Channel} (ok : Bool) (h : c' ≠ c) :
    (log.fopen c ok).file c' = log.file c' := by
  rw [fopen, file_setFile_of_ne _ _ h]
  cases c' <;> rfl

theorem stdio_fopen (c : Channel) (ok : Bool) :
    (log.fopen c ok).stdio = (log.stdio.fopen ok).2 := by
  rw [fopen, stdio_setFile]

@[simp] theorem closed_fopen (c : Channel) (ok : Bool) :
    (log.fopen c ok).stdio.closed = log.stdio.closed := by
  rw [stdio_fopen]
  cases ok <;> rfl

theorem opened_fopen (c : Channel) (ok : Bool) :
    (log.fopen c ok).stdio.opened = log.stdio.opened + ok.toNat := by
  rw [stdio_fopen]
  cases ok <;> rfl

@[simp] theorem taskServer_fopen (c : Channel) (ok : Bool) :
    (log.fopen c ok).taskServer = log.taskServer := by
  rw [fopen, taskServer_setFile]

/-! ## Messages -/

/-- The pointers and the files are the same in both. -/
structure SameFiles (log log' : CellLog) : Prop where
  file : ∀ c, log'.file c = log.file c
  opened : log'.stdio.opened = log.stdio.opened
  closed : log'.stdio.closed = log.stdio.closed

theorem SameFiles.refl : SameFiles log log := ⟨fun _ => rfl, rfl, rfl⟩

/-- Tasks and messages leave the pointers and the files. -/
theorem sameFiles_taskServer (q : CellTaskServer LogTask) :
    SameFiles log { log with taskServer := q } :=
  ⟨fun c => by cases c <;> rfl, rfl, rfl⟩

theorem sameFiles_print (p : Printed) : SameFiles log (log.print p) :=
  ⟨fun c => by cases c <;> rfl, rfl, rfl⟩

theorem sameFiles_addTask (task : LogTask) : SameFiles log (log.addTask task) :=
  log.sameFiles_taskServer _

theorem sameFiles_info (msgLevel : ℤ) (pStr : String) :
    SameFiles log (log.info msgLevel pStr) := by
  unfold info
  cases log.infoEffect msgLevel pStr with
  | print p => exact log.sameFiles_print p
  | addTask task => exact log.sameFiles_addTask task
  | nothing => exact .refl log

@[simp] theorem file_info (msgLevel : ℤ) (pStr : String) (c : Channel) :
    (log.info msgLevel pStr).file c = log.file c :=
  (log.sameFiles_info _ _).file c

/-! ## The parts of a setter -/

@[simp] theorem file_clearPath (c : Channel) : (log.clearPath c).file c = none := by
  unfold clearPath
  split_ifs with hfile
  · exact file_setFile _ _ _
  · exact Option.not_isSome_iff_eq_none.mp hfile

theorem file_clearPath_of_ne {c c' : Channel} (h : c' ≠ c) :
    (log.clearPath c).file c' = log.file c' := by
  unfold clearPath
  split_ifs
  · rw [file_setFile_of_ne _ _ h, file_fclose, file_info]
  · rfl

@[simp] theorem file_checkPath (p : SetPath) (c : Channel) :
    (log.checkPath p).2.file c = log.file c := by
  unfold checkPath
  split_ifs
  · exact log.file_info _ _ c
  · rfl

theorem checkPath_fst (p : SetPath) : (log.checkPath p).1 = (log.file p.tested).isSome := by
  unfold checkPath
  cases log.file p.tested <;> rfl

/-- **What a setter does to the pointers**: its own has a new file or none, and the other is
left. -/
theorem file_setPath (p : SetPath) (ok : Bool) : ((log.setPath p ok).2.file p.own).isSome = ok := by
  rw [setPath, file_checkPath, file_fopen]
  cases ok <;> rfl

theorem file_setPath_of_ne (p : SetPath) (ok : Bool) {c : Channel} (h : c ≠ p.own) :
    (log.setPath p ok).2.file c = log.file c := by
  rw [setPath, file_checkPath, file_fopen_of_ne _ _ h, file_clearPath_of_ne _ h]

/-- It returns whether there is a file in the pointer that it tests. -/
theorem setPath_fst (p : SetPath) (ok : Bool) :
    (log.setPath p ok).1 = ((log.setPath p ok).2.file p.tested).isSome := by
  rw [setPath, checkPath_fst, file_checkPath]

end CellLog
end EasyTcpServer
