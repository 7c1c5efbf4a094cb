import EasyTcpServer.Lib.Format
import EasyTcpServer.Log.CellLog
import EasyTcpServer.Pool.AllocSize

/-!
# The stamp of a log line

A line in a file begins with the date, the time and the level.  `get_Now_Date` and `get_Now_Time`
print what `gmtime` gives into `_date` and `_time`, two arrays of ten characters, and the line is
printed from there.

Ten characters are enough for a date of nine.  A day of two digits in a month of two digits makes
a date of ten, and its zero does not go into the array.  But the arrays come from the `operator
new[]` of `MemoryMgr`, and a block of its pool is longer: the zero is then in the rest of the
block, which nobody else has.  The arrays here are as long as the blocks.

* Each of the two functions asks the clock, so a stamp has two times.
* The order in which they are called is up to the compiler; each has an array of its own.

`stamp_law`: which stamps are printed, that the arrays keep nothing of what they held, and that a
line is read back.  Without a block of the pool `new` falls back on `malloc`, for ten characters.
-/

namespace EasyTcpServer

open Format

/-- What `gmtime` gives, in a year of four digits. -/
structure Tm where
  /-- The years since 1900. -/
  tmYear : ℕ
  /-- The months since January. -/
  tmMon : ℕ
  tmMday : ℕ
  tmHour : ℕ
  tmMin : ℕ
  tmSec : ℕ
  year : 70 ≤ tmYear ∧ tmYear < 8100
  mon : tmMon < 12
  mday : 1 ≤ tmMday ∧ tmMday ≤ 31
  hour : tmHour < 24
  min : tmMin < 60
  /-- A leap second is the sixtieth. -/
  sec : tmSec ≤ 60
  deriving DecidableEq

namespace Tm

variable (now : Tm)

/-- The numbers of a date. -/
def date : List ℕ := [now.tmYear + 1900, now.tmMon + 1, now.tmMday]

/-- The numbers of a time of day. -/
def time : List ℕ := [now.tmHour, now.tmMin, now.tmSec]

end Tm

/-- What stands in the brackets of a line. -/
def Channel.level : Channel → List Char
  | .warning => "Warning".toList
  | .error => "Error".toList

/-- What is asked of `new[]` for `_date` and for `_time`. -/
def stampSize : ℕ := 10

/-- `_date` and `_time`, with all characters of their blocks. -/
structure Stamps (nDate nTime : ℕ) where
  date : CharArray nDate
  time : CharArray nTime
  deriving DecidableEq

namespace Stamps

variable {nDate nTime : ℕ} (b : Stamps nDate nTime)

/-- Zeros in both arrays. -/
def blank (nDate nTime : ℕ) : Stamps nDate nTime :=
  ⟨⟨.replicate nDate nul, List.length_replicate⟩, ⟨.replicate nTime nul, List.length_replicate⟩⟩

def getNowDate (now : Tm) : Option (Stamps nDate nTime) :=
  (sprintf b.date (separated '.' now.date)).map fun date => { b with date := date }

def getNowTime (now : Tm) : Option (Stamps nDate nTime) :=
  (sprintf b.time (separated ':' now.time)).map fun time => { b with time := time }

/-- What is printed in front of the text. -/
def front (c : Channel) (date time : List Char) : List Char :=
  bracketed '[' ']' date ++ (bracketed '[' ']' time ++ (bracketed '<' '>' c.level ++ ": ".toList))

/-- The first `fprintf` of a task. -/
def fprintfStamp (c : Channel) (today now : Tm) : Option (Stamps nDate nTime × List Char) :=
  (b.getNowDate today).bind fun b => (b.getNowTime now).map fun b =>
    (b, front c (cString b.date) (cString b.time))

end Stamps

/-- The stamp of a line. -/
def stampText (c : Channel) (today now : Tm) : List Char :=
  Stamps.front c (separated '.' today.date) (separated ':' now.time)

/-- The date, the time, the level and the text of a line. -/
def readLine (line : List Char) : Option (List ℕ × List ℕ × List Char × List Char) :=
  (readBracketed '[' ']' line).bind fun p => (readBracketed '[' ']' p.2).bind fun q =>
    (readBracketed '<' '>' q.2).map fun r =>
      (readSeparated '.' p.1, readSeparated ':' q.1, r.1, r.2.drop 2)

/-- The date and its zero go into `n` characters, of which there are at least ten: there are more,
or the day or the month has one digit. -/
def Tm.Fits (now : Tm) (n : ℕ) : Prop := stampSize < n ∨ now.tmMon + 1 < 10 ∨ now.tmMday < 10

instance (now : Tm) (n : ℕ) : Decidable (now.Fits n) := by
  unfold Tm.Fits
  infer_instance

/-! ## Lengths -/

section Lengths

variable {nDate nTime : ℕ} {today now : Tm} {b b' : Stamps nDate nTime} {c : Channel}
  {text : List Char}

theorem length_separated_three (sep : Char) (x y z : ℕ) :
    (separated sep [x, y, z]).length =
      (Nat.toDigits 10 x).length + (Nat.toDigits 10 y).length + (Nat.toDigits 10 z).length + 2 := by
  simp [separated, List.intercalate]
  omega

/-- A number below a hundred has one digit or two. -/
theorem length_toDigits_of_lt {n : ℕ} (h : n < 100) :
    (Nat.toDigits 10 n).length = if n < 10 then 1 else 2 := by
  split_ifs with hlt
  · rw [Nat.toDigits_of_lt_base hlt]
    rfl
  · exact length_toDigits (k := 1) (by omega) h

theorem length_date_lt_iff (hdate : stampSize ≤ nDate) :
    (separated '.' now.date).length < nDate ↔ now.Fits nDate := by
  have hyear := now.year
  have hmon := now.mon
  have hmday := now.mday
  have hdigits : (Nat.toDigits 10 (now.tmYear + 1900)).length = 4 :=
    length_toDigits (k := 3) (by omega) (by omega)
  rw [Tm.date, length_separated_three, hdigits, length_toDigits_of_lt (by omega),
    length_toDigits_of_lt (by omega), Tm.Fits]
  unfold stampSize at hdate ⊢
  split_ifs <;> omega

theorem length_time_lt : (separated ':' now.time).length < stampSize := by
  have hhour := now.hour
  have hmin := now.min
  have hsec := now.sec
  rw [Tm.time, length_separated_three, length_toDigits_of_lt (by omega),
    length_toDigits_of_lt (by omega), length_toDigits_of_lt (by omega)]
  unfold stampSize
  split_ifs <;> omega

/-! ## The arrays -/

/-- **Which stamps are printed**: those whose date goes into the array. -/
theorem fprintfStamp_isSome_iff (hdate : stampSize ≤ nDate) (htime : stampSize ≤ nTime) :
    (b.fprintfStamp c today now).isSome = true ↔ today.Fits nDate := by
  have hfits : (sprintf b.date (separated '.' today.date)).isSome = true ↔ today.Fits nDate :=
    sprintf_isSome_iff.trans (length_date_lt_iff hdate)
  rw [← hfits]
  have htime (b : Stamps nDate nTime) :
      ∃ time, sprintf b.time (separated ':' now.time) = some time :=
    Option.isSome_iff_exists.mp (sprintf_isSome_iff.mpr (length_time_lt.trans_le htime))
  unfold Stamps.fprintfStamp Stamps.getNowDate
  cases hdate : sprintf b.date (separated '.' today.date) with
  | none => rfl
  | some date =>
    obtain ⟨time, htime⟩ := htime { b with date := date }
    simp [Stamps.getNowTime, htime]

/-- **What is printed** is the stamp of these times, whatever the arrays held. -/
theorem fprintfStamp_eq (h : b.fprintfStamp c today now = some (b', text)) :
    text = stampText c today now := by
  obtain ⟨b₁, hb₁, h⟩ := Option.bind_eq_some_iff.mp h
  obtain ⟨date, hdate, rfl⟩ := Option.map_eq_some_iff.mp hb₁
  obtain ⟨b₂, hb₂, h⟩ := Option.map_eq_some_iff.mp h
  obtain ⟨time, htime, rfl⟩ := Option.map_eq_some_iff.mp hb₂
  obtain ⟨-, rfl⟩ := Prod.mk.inj h
  show Stamps.front c (cString date) (cString time) = _
  rw [cString_sprintf (not_mem_separated (by decide) (by decide)) hdate,
    cString_sprintf (not_mem_separated (by decide) (by decide)) htime]
  rfl

/-- **A line is read back.** -/
theorem readLine_stampText (c : Channel) (today now : Tm) (text : List Char) :
    readLine (stampText c today now ++ text) = some (today.date, now.time, c.level, text) := by
  have hdate : ']' ∉ separated '.' today.date := not_mem_separated (by decide) (by decide)
  have htime : ']' ∉ separated ':' now.time := not_mem_separated (by decide) (by decide)
  have hlevel : '>' ∉ c.level := by
    cases c <;> decide
  rw [readLine, stampText, Stamps.front, List.append_assoc, readBracketed_append hdate,
    Option.bind_some, List.append_assoc, readBracketed_append htime, Option.bind_some,
    List.append_assoc, readBracketed_append hlevel, Option.map_some]
  have hreadDate : readSeparated '.' (separated '.' today.date) = today.date :=
    readSeparated_separated (by decide) (List.cons_ne_nil _ _)
  have hreadTime : readSeparated ':' (separated ':' now.time) = now.time :=
    readSeparated_separated (by decide) (List.cons_ne_nil _ _)
  dsimp only
  rw [hreadDate, hreadTime]
  rfl

end Lengths

/-! ## The blocks -/

section Blocks

open MemoryMgr (Gets Units)

variable {g g' : MemoryMgr} {malloc malloc' : ℕ → Option ℕ} {a a' nDate nTime : ℕ}

/-- The block for one of the arrays: a block of the pool, or the ten characters from `malloc`. -/
theorem block_cases (hunits : g.Units) (h : g.Gets malloc stampSize a nDate) :
    nDate = 64 ∧ (g.prepared malloc .mem_64).pHeader.isSome = true ∨
      nDate = stampSize ∧ (g.prepared malloc .mem_64).pHeader.isSome = false := by
  generalize hn : (nDate : ℤ) = n at h
  cases h with
  | @pool k hk hheader =>
    obtain rfl : Pool.mem_64 = k := Option.some.inj hk
    have hsize : (g.prepared malloc .mem_64).nSize = 64 :=
      MemoryMgr.prepared_nSize.trans (hunits .mem_64)
    rw [hsize] at hn
    exact .inl ⟨Int.ofNat.inj hn, Option.isSome_iff_exists.mpr ⟨a, hheader⟩⟩
  | malloc hnone _ =>
    refine .inr ⟨Int.ofNat.inj hn, ?_⟩
    rw [hnone .mem_64 rfl]
    rfl

theorem stampSize_le (hunits : g.Units) (h : g.Gets malloc stampSize a nDate) :
    stampSize ≤ nDate := by
  rcases block_cases hunits h with ⟨rfl, -⟩ | ⟨rfl, -⟩
  · decide
  · exact le_refl _

theorem stampSize_lt_iff (hunits : g.Units) (h : g.Gets malloc stampSize a nDate) :
    stampSize < nDate ↔ (g.prepared malloc .mem_64).pHeader.isSome = true := by
  rcases block_cases hunits h with ⟨rfl, hsome⟩ | ⟨rfl, hnone⟩
  · exact iff_of_true (by decide) hsome
  · rw [hnone]
    exact iff_of_false (lt_irrefl _) Bool.false_ne_true

/-- **The stamp of a log line.**  It is printed if and only if the pool of `MemoryMgr` had a block
for `_date`, or the day or the month has one digit; otherwise `get_Now_Date` writes past the end
of the ten characters that `malloc` gave.  It does not depend on what was printed before, and from
a line that is printed its date, its time, its level and its text are read back. -/
theorem stamp_law (hunits : g.Units) (hunits' : g'.Units)
    (hdate : g.Gets malloc stampSize a nDate) (htime : g'.Gets malloc' stampSize a' nTime)
    (b : Stamps nDate nTime) (c : Channel) (today now : Tm) :
    ((b.fprintfStamp c today now).isSome = true ↔
        (g.prepared malloc .mem_64).pHeader.isSome = true ∨
          today.tmMon + 1 < 10 ∨ today.tmMday < 10) ∧
      ∀ b' stamp, b.fprintfStamp c today now = some (b', stamp) → ∀ text,
        readLine (stamp ++ text) = some (today.date, now.time, c.level, text) := by
  refine ⟨?_, fun b' stamp hstamp text => ?_⟩
  · rw [← stampSize_lt_iff hunits hdate]
    exact fprintfStamp_isSome_iff (stampSize_le hunits hdate) (stampSize_le hunits' htime)
  · rw [fprintfStamp_eq hstamp]
    exact readLine_stampText c today now text

end Blocks

/-- The tenth of an October. -/
def october : Tm := ⟨124, 9, 10, 8, 0, 0, by decide, by decide, by decide, by decide, by decide,
  by decide⟩

/-- On the tenth of October, with the first block of the pool for each of the arrays. -/
theorem stamp_law_october :
    (MemoryMgr.new MemoryRun.noBlocks).Gets (fun _ => some 9000) stampSize 9000 (64 : ℕ) ∧
      ((Stamps.blank 64 64).fprintfStamp .warning october october).isSome = true ∧
      ∀ b' stamp, (Stamps.blank 64 64).fprintfStamp .warning october october = some (b', stamp) →
        ∀ text, readLine (stamp ++ text) =
          some ([2024, 10, 10], [8, 0, 0], "Warning".toList, text) := by
  have hunits : (MemoryMgr.new MemoryRun.noBlocks).Units := fun k => by cases k <;> rfl
  have hgets : (MemoryMgr.new MemoryRun.noBlocks).Gets (fun _ => some 9000) stampSize 9000
      (64 : ℕ) := .pool (k := .mem_64) rfl rfl
  obtain ⟨hprinted, hread⟩ :=
    stamp_law hunits hunits hgets hgets (Stamps.blank 64 64) .warning october october
  exact ⟨hgets, hprinted.mpr (.inl rfl), hread⟩

end EasyTcpServer
