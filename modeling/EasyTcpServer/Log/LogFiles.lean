import Mathlib.Data.List.Count
import EasyTcpServer.Log.CellLog

/-!
# The files of a log, from its constructor to its destructor

The setters and the destructor have two pointers between them, and test one for the other.
`setErrorLogPath` returns whether `_logFile` is there.  The destructor closes both files when
`_logFile` is there, and none when it is not.

So what is expected of them depends on the outcomes of `fopen` for both files, in their order.
`Agree` is the condition on these, and `filesLaw_iff` says that it is the exact one.

What carries the proof is a balance: every file opened so far was closed once or is in one of the
pointers, and not both (`Balance`).
-/

namespace EasyTcpServer
namespace LogFiles

/-- A call of a setter, with what `fopen` reports. -/
inductive Call where
  | setLogPath (filePath mode : String) (ok : Bool)
  | setErrorLogPath (filePath mode : String) (ok : Bool)
  deriving DecidableEq, Repr

namespace Call

def ok : Call → Bool
  | setLogPath _ _ ok => ok
  | setErrorLogPath _ _ ok => ok

/-- What it returns, and what it leaves. -/
def exec (log : CellLog) : Call → Bool × CellLog
  | setLogPath filePath mode ok => log.setLogPath filePath mode ok
  | setErrorLogPath filePath mode ok => log.setErrorLogPath filePath mode ok

end Call

/-- What a sequence of calls returns. -/
def results : CellLog → List Call → List Bool
  | _, [] => []
  | log, call :: calls => (call.exec log).1 :: results (call.exec log).2 calls

/-- What it leaves. -/
def after : CellLog → List Call → CellLog
  | log, [] => log
  | log, call :: calls => after (call.exec log).2 calls

/-- Every file that was opened was closed once, and nothing else. -/
structure Closed (io : Stdio) : Prop where
  once : ∀ f : File, f.number < io.opened → io.closed.count (some f) = 1
  ne_null : none ∉ io.closed

/-- **What is expected** of a log on which some setters are called, and which is destroyed
then. -/
structure FilesLaw (calls : List Call) : Prop where
  returns : results .new calls = calls.map Call.ok
  closed : Closed (after .new calls).destroy.stdio

/-- The condition on the outcomes of `fopen`, when `_logFile` and `_logErrorFile` are there or
not: each `setErrorLogPath` opens its file exactly when the last `setLogPath` has opened one, and
at the end both files are there or none. -/
def Agree : Bool → Bool → List Call → Prop
  | logFile, logErrorFile, [] => logFile = logErrorFile
  | _, logErrorFile, .setLogPath _ _ ok :: calls => Agree ok logErrorFile calls
  | logFile, _, .setErrorLogPath _ _ ok :: calls => ok = logFile ∧ Agree logFile ok calls

instance : (w e : Bool) → (calls : List Call) → Decidable (Agree w e calls)
  | w, e, [] => inferInstanceAs (Decidable (w = e))
  | _, e, .setLogPath _ _ ok :: calls => instDecidableAgree ok e calls
  | w, _, .setErrorLogPath _ _ ok :: calls =>
    have := instDecidableAgree w ok calls
    inferInstanceAs (Decidable (ok = w ∧ Agree w ok calls))

/-! ## The balance -/

/-- What the two pointers have. -/
def pointers (log : CellLog) : List (Option File) := [log.logFile, log.logErrorFile]

/-- A file that was opened was closed once or is in one pointer; and `fclose` was never called
with a null pointer. -/
structure Balance (log : CellLog) : Prop where
  count : ∀ f, log.stdio.closed.count (some f) + (pointers log).count (some f) =
    if f.number < log.stdio.opened then 1 else 0
  ne_null : none ∉ log.stdio.closed

/-- The pointer that is not that of `c`. -/
def other : Channel → Channel
  | .warning => .error
  | .error => .warning

theorem other_ne (c : Channel) : other c ≠ c := by
  cases c <;> decide

variable {log : CellLog}

theorem count_pointers (log : CellLog) (c : Channel) (x : Option File) :
    (pointers log).count x = [log.file c].count x + [log.file (other c)].count x := by
  have hcons : (pointers log).count x = [log.logFile].count x + [log.logErrorFile].count x := by
    rw [← List.count_append]
    rfl
  cases c with
  | warning => exact hcons
  | error => exact hcons.trans (Nat.add_comm _ _)

theorem count_none (f : File) : [(none : Option File)].count (some f) = 0 :=
  List.count_eq_zero.mpr (by simp)

theorem count_some (f g : File) : [some g].count (some f) = if g = f then 1 else 0 := by
  rw [List.count_singleton]
  simp

theorem balance_new : Balance .new :=
  ⟨fun _ => rfl, List.not_mem_nil⟩

/-- Messages keep the balance. -/
theorem Balance.info (h : Balance log) (msgLevel : ℤ) (pStr : String) :
    Balance (log.info msgLevel pStr) := by
  obtain ⟨hfile, hopened, hclosed⟩ := log.sameFiles_info msgLevel pStr
  constructor
  · intro f
    rw [hclosed, hopened, count_pointers _ .warning, hfile, hfile, ← count_pointers _ .warning]
    exact h.count f
  · rw [hclosed]
    exact h.ne_null

/-- A file is closed and its pointer set to null. -/
theorem Balance.close (h : Balance log) {c : Channel} (hfile : (log.file c).isSome = true) :
    Balance ((log.fclose c).setFile none c) := by
  obtain ⟨g, hg⟩ := Option.isSome_iff_exists.mp hfile
  have hclosed : ((log.fclose c).setFile none c).stdio.closed = log.stdio.closed ++ [some g] := by
    rw [CellLog.stdio_setFile, CellLog.closed_fclose, hg]
  have hopened : ((log.fclose c).setFile none c).stdio.opened = log.stdio.opened := by
    rw [CellLog.stdio_setFile, CellLog.opened_fclose]
  constructor
  · intro f
    have hcount := h.count f
    -- the file has gone from the pointer to the files closed
    rw [count_pointers log c, hg] at hcount
    rw [hclosed, hopened, List.count_append, count_pointers _ c, CellLog.file_setFile,
      CellLog.file_setFile_of_ne _ _ (other_ne c), CellLog.file_fclose, count_none]
    omega
  · rw [hclosed, List.mem_append, List.mem_singleton]
    rintro (hmem | hnull)
    · exact h.ne_null hmem
    · cases hnull

/-- A file is opened for a pointer that is null. -/
theorem Balance.open (h : Balance log) {c : Channel} (hfile : log.file c = none) (ok : Bool) :
    Balance (log.fopen c ok) := by
  have hclosed := log.closed_fopen c ok
  constructor
  · intro f
    have hcount := h.count f
    rw [count_pointers log c, hfile, count_none] at hcount
    rw [hclosed, count_pointers _ c, CellLog.file_fopen, CellLog.file_fopen_of_ne _ _ (other_ne c),
      CellLog.opened_fopen]
    cases ok with
    | false =>
      rw [if_neg Bool.false_ne_true, count_none]
      exact hcount
    | true =>
      simp only [if_true, count_some, Bool.toNat_true, File.ext_iff]
      split_ifs at hcount ⊢ <;> omega
  · rw [hclosed]
    exact h.ne_null

/-! ## One call -/

theorem Balance.setPath (h : Balance log) (p : SetPath) (ok : Bool) :
    Balance (log.setPath p ok).2 := by
  have hclear : Balance (log.clearPath p.own) := by
    unfold CellLog.clearPath
    split_ifs with hfile
    · exact (h.info _ _).close (by rwa [CellLog.file_info])
    · exact h
  have hopen := hclear.open (CellLog.file_clearPath _ _) ok
  unfold CellLog.setPath CellLog.checkPath
  split_ifs
  · exact hopen.info _ _
  · exact hopen

/-- **A call of `setLogPath`.** -/
theorem setLogPath_spec (log : CellLog) (filePath mode : String) (ok : Bool) :
    (log.setLogPath filePath mode ok).1 = ok ∧
      (log.setLogPath filePath mode ok).2.logFile.isSome = ok ∧
      (log.setLogPath filePath mode ok).2.logErrorFile = log.logErrorFile := by
  have hown := log.file_setPath ⟨.warning, .warning, filePath, mode⟩ ok
  exact ⟨(log.setPath_fst _ ok).trans hown, hown,
    log.file_setPath_of_ne ⟨.warning, .warning, filePath, mode⟩ ok (other_ne .warning)⟩

/-- **A call of `setErrorLogPath`**: it returns whether there is a `_logFile`. -/
theorem setErrorLogPath_spec (log : CellLog) (filePath mode : String) (ok : Bool) :
    (log.setErrorLogPath filePath mode ok).1 = log.logFile.isSome ∧
      (log.setErrorLogPath filePath mode ok).2.logErrorFile.isSome = ok ∧
      (log.setErrorLogPath filePath mode ok).2.logFile = log.logFile := by
  have hother := log.file_setPath_of_ne ⟨.error, .warning, filePath, mode⟩ ok (other_ne .error)
  exact ⟨(log.setPath_fst _ ok).trans (congrArg Option.isSome hother),
    log.file_setPath ⟨.error, .warning, filePath, mode⟩ ok, hother⟩

/-! ## The destructor -/

/-- Without a `_logFile` nothing is closed. -/
theorem destroy_of_none (h : log.logFile = none) :
    log.destroy.stdio.closed = log.stdio.closed ∧
      log.destroy.stdio.opened = log.stdio.opened := by
  have hfile : ¬ log.logFile.isSome = true := by simp [h]
  constructor <;> simp only [CellLog.destroy, if_neg hfile]

/-- With one, `fclose` is called for both pointers. -/
theorem destroy_of_some (h : log.logFile.isSome = true) :
    log.destroy.stdio.closed = log.stdio.closed ++ pointers log ∧
      log.destroy.stdio.opened = log.stdio.opened := by
  constructor
  · simp only [CellLog.destroy, if_pos h]
    exact List.append_assoc _ [_] [_]
  · simp only [CellLog.destroy, if_pos h]
    rfl

/-- **What the destructor leaves closed**: everything, when it finds both files or none. -/
theorem closed_destroy_iff (h : Balance log) :
    Closed log.destroy.stdio ↔ log.logFile.isSome = log.logErrorFile.isSome := by
  cases hlog : log.logFile with
  | none =>
    obtain ⟨hclosed, hopened⟩ := destroy_of_none hlog
    have hcount (f : File) := h.count f
    simp only [count_pointers _ .warning, CellLog.file, other, hlog, count_none] at hcount
    cases herror : log.logErrorFile with
    | none =>
      refine iff_of_true ⟨fun f hf => ?_, hclosed ▸ h.ne_null⟩ rfl
      have hf' := hcount f
      rw [herror, count_none, if_pos (hopened ▸ hf)] at hf'
      rw [hclosed]
      omega
    | some g =>
      refine iff_of_false (fun hall => ?_) Bool.false_ne_true
      -- the error file was opened, and is closed by nothing
      have hg := hcount g
      rw [herror, count_some, if_pos rfl] at hg
      have hlt : g.number < log.stdio.opened := by
        by_contra hge
        rw [if_neg hge] at hg
        omega
      have honce := hall.once g (hopened.symm ▸ hlt)
      rw [hclosed] at honce
      rw [if_pos hlt] at hg
      omega
  | some g =>
    obtain ⟨hclosed, hopened⟩ := destroy_of_some (Option.isSome_iff_exists.mpr ⟨g, hlog⟩)
    have honce (f : File) (hf : f.number < log.destroy.stdio.opened) :
        log.destroy.stdio.closed.count (some f) = 1 := by
      rw [hclosed, List.count_append, h.count, if_pos (hopened ▸ hf)]
    have hnull : none ∉ log.destroy.stdio.closed ↔ log.logErrorFile.isSome = true := by
      rw [hclosed, List.mem_append, pointers, hlog, ← Option.ne_none_iff_isSome]
      simp [h.ne_null, eq_comm]
    rw [Option.isSome_some, eq_comm, ← hnull]
    exact ⟨fun hall => hall.ne_null, fun hne => ⟨honce, hne⟩⟩

/-! ## Sequences of calls -/

/-- **The law from any log on**, by the calls that are still to come. -/
theorem law_iff_agree (calls : List Call) (h : Balance log) :
    results log calls = calls.map Call.ok ∧ Closed (after log calls).destroy.stdio ↔
      Agree log.logFile.isSome log.logErrorFile.isSome calls := by
  induction calls generalizing log with
  | nil => exact (and_iff_right rfl).trans (closed_destroy_iff h)
  | cons call calls ih =>
    rw [results, List.map_cons, List.cons_eq_cons, and_assoc, after]
    cases call with
    | setLogPath filePath mode ok =>
      obtain ⟨hret, hlog, herror⟩ := setLogPath_spec log filePath mode ok
      have hbalance : Balance (log.setLogPath filePath mode ok).2 := h.setPath _ ok
      have hrest := ih hbalance
      rw [hlog, herror] at hrest
      exact (and_iff_right hret).trans hrest
    | setErrorLogPath filePath mode ok =>
      obtain ⟨hret, herror, hlog⟩ := setErrorLogPath_spec log filePath mode ok
      have hbalance : Balance (log.setErrorLogPath filePath mode ok).2 := h.setPath _ ok
      have hrest := ih hbalance
      rw [hlog, herror] at hrest
      exact and_congr ((Eq.congr_left hret).trans eq_comm) hrest

/-- **The files of a log.**  For every sequence of calls, what is expected holds exactly when the
outcomes of `fopen` agree. -/
theorem filesLaw_iff (calls : List Call) : FilesLaw calls ↔ Agree false false calls :=
  Iff.trans ⟨fun h => ⟨h.returns, h.closed⟩, fun h => ⟨h.1, h.2⟩⟩
    (law_iff_agree calls balance_new)

/-- Both files, the error log reopened once. -/
theorem filesLaw_both : FilesLaw [.setLogPath "info.log" "w" true,
    .setErrorLogPath "error.log" "w" true, .setErrorLogPath "error.log" "a" true] :=
  (filesLaw_iff _).mpr (by decide)

/-- One file each.  With the first alone `setErrorLogPath` says that it has failed, and its file
is closed by nothing; with the second alone `fclose` is called with a null pointer. -/
theorem filesLaw_one_file :
    ¬ (∀ calls, FilesLaw calls) ∧
      results .new [.setErrorLogPath "error.log" "w" true] = [false] ∧
      (after .new [.setErrorLogPath "error.log" "w" true]).destroy.stdio.closed = [] ∧
      (after .new [.setLogPath "info.log" "w" true]).destroy.stdio.closed =
        [some ⟨0⟩, none] :=
  ⟨fun h => absurd (h [.setErrorLogPath "error.log" "w" true]).returns (by decide),
    by decide, by decide, by decide⟩

end LogFiles
end EasyTcpServer
