import EasyTcpServer.Lib.Machine
import EasyTcpServer.Log.CellLog

/-!
# The threads that use a log

Any number of threads call `Info` and the setters, in any order, while the worker of the task
server runs what `Info` has appended.  No mutex guards the two pointers.  Each statement that
reads or writes one of them is a step of its own: the test in `Info`, the append behind it, the
tests of a setter, `fclose`, the null pointer, `fopen` with the assignment of its result, and each
use of the file inside a task.  What `fopen` returns is seen by nobody before it is assigned.

`_isRun` of the worker is up throughout, because only the destructor lowers it.
-/

namespace EasyTcpServer
namespace LogTasks

/-! ## The threads -/

/-- Where `Info` returns to. -/
inductive Return where
  /-- Out of the log, with what a setter returns. -/
  | outside (ret : Option Bool)
  /-- To the `fclose` of a setter. -/
  | fclose (p : SetPath)
  deriving DecidableEq, Repr

/-- Where a thread is. -/
inductive Loc where
  | outside (ret : Option Bool)
  /-- In front of the tests of `Info`. -/
  | info (msgLevel : ℤ) (pStr : String) (next : Return)
  /-- Behind them, in front of the append. -/
  | addTask (task : LogTask) (next : Return)
  /-- In front of the first test of a setter. -/
  | test (p : SetPath)
  | fclose (p : SetPath)
  | setNull (p : SetPath)
  | fopen (p : SetPath)
  /-- In front of its last test. -/
  | check (p : SetPath)
  deriving DecidableEq, Repr

def Return.loc : Return → Loc
  | .outside ret => .outside ret
  | .fclose p => .fclose p

/-- What a thread may call. -/
inductive Call where
  | info (msgLevel : ℤ) (pStr : String)
  | setLogPath (filePath mode : String)
  | setErrorLogPath (filePath mode : String)
  deriving DecidableEq, Repr

def Call.start : Call → Loc
  | .info msgLevel pStr => .info msgLevel pStr (.outside none)
  | .setLogPath filePath mode => .test ⟨.warning, .warning, filePath, mode⟩
  | .setErrorLogPath filePath mode => .test ⟨.error, .warning, filePath, mode⟩

/-- A step of a thread inside a call; `ok` is what `fopen` reports if the step calls it. -/
def callStep (log : CellLog) (ok : Bool) : Loc → Option (CellLog × Loc)
  | .outside _ => none
  | .info msgLevel pStr next =>
    match log.infoEffect msgLevel pStr with
    | .print p => some (log.print p, next.loc)
    | .addTask task => some (log, .addTask task next)
    | .nothing => some (log, next.loc)
  | .addTask task next => some (log.addTask task, next.loc)
  | .test p =>
    some (log, if (log.file p.own).isSome then .info errorMsg CellLog.notNull (.fclose p)
      else .fopen p)
  | .fclose p => some (log.fclose p.own, .setNull p)
  | .setNull p => some (log.setFile none p.own, .fopen p)
  | .fopen p => some (log.fopen p.own ok, .check p)
  | .check p =>
    some (log, if (log.file p.tested).isNone then
        .info errorMsg (CellLog.openFailed p.filePath p.mode) (.outside (some false))
      else .outside (some true))

/-- Where the worker is in `onRun`, and what is left of the task it is in. -/
structure Worker where
  loc : CellTaskServer.Loc
  body : List (Channel × FileUse)
  deriving DecidableEq, Repr

structure State where
  log : CellLog
  callers : List Loc
  worker : Worker
  deriving DecidableEq, Repr

inductive Act where
  /-- Thread `j` makes a call. -/
  | call (j : ℕ) (c : Call)
  /-- Thread `j` goes on in its call. -/
  | caller (j : ℕ) (ok : Bool)
  | worker
  deriving DecidableEq, Repr

/-- A step of the worker: a use of the file, or a step of `onRun`. -/
def workerStep (s : State) : Option State :=
  match s.worker.body with
  | _ :: body => some { s with worker := { s.worker with body := body } }
  | [] =>
    match s.log.taskServer.onRun true s.worker.loc with
    | (q, started, .goto l) =>
      some { s with
        log := { s.log with taskServer := q }
        worker := ⟨l, started.toList.flatMap LogTask.body⟩ }
    | (_, _, _) => none

def step (s : State) : Act → Option State
  | .call j c =>
    match s.callers[j]? with
    | some (.outside _) => some { s with callers := s.callers.set j c.start }
    | _ => none
  | .caller j ok =>
    (s.callers[j]?.bind (callStep s.log ok)).map fun r =>
      { s with log := r.1, callers := s.callers.set j r.2 }
  | .worker => workerStep s

end LogTasks

open LogTasks in
/-- A new log and `n` threads. -/
def logTasks (n : ℕ) : Machine State Act where
  init := ⟨.new, .replicate n (.outside none), ⟨.loop, []⟩⟩
  step := step

end EasyTcpServer
