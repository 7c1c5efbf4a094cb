import Mathlib.Algebra.GroupWithZero.Nat
import Mathlib.Order.Nat

/-!
# Formatted text

What `sprintf` and `fprintf` make of numbers and strings, and how it is read back: numbers with a
character between them, a text in brackets, and a text in an array of characters, which ends at the
first zero.

* `readSeparated_separated`, `readBracketed_append`: the text is read back.
* `cString_sprintf`: what `sprintf` has written into an array is the string that `%s` finds there,
  whatever the array held before.
-/

namespace EasyTcpServer
namespace Format

/-! ## Numbers -/

/-- Numbers, each one for `%d`, with a character between them. -/
def separated (sep : Char) (ns : List ℕ) : List Char :=
  [sep].intercalate (ns.map (Nat.toDigits 10))

def readSeparated (sep : Char) (text : List Char) : List ℕ :=
  (text.splitOn sep).map fun digits => Nat.ofDigitChars 10 digits 0

variable {sep opening closing c : Char} {ns : List ℕ} {n k : ℕ} {text : List Char}

theorem not_mem_toDigits (hc : c.isDigit = false) : c ∉ Nat.toDigits 10 n := by
  intro hmem
  have hdigit := Nat.isDigit_of_mem_toDigits (by decide) (by decide) hmem
  exact Bool.false_ne_true (hc.symm.trans hdigit)

/-- **Numbers are read back**, if what stands between them is no digit. -/
theorem readSeparated_separated (hsep : sep.isDigit = false) (hns : ns ≠ []) :
    readSeparated sep (separated sep ns) = ns := by
  have hsplit : (separated sep ns).splitOn sep = ns.map (Nat.toDigits 10) := by
    refine List.splitOn_intercalate sep (fun digits hdigits => ?_) (by simpa using hns)
    obtain ⟨n, -, rfl⟩ := List.mem_map.mp hdigits
    exact not_mem_toDigits hsep
  rw [readSeparated, hsplit, List.map_map]
  conv_rhs => rw [← List.map_id ns]
  exact List.map_congr_left fun n _ => Nat.ofDigitChars_ten_toDigits

/-- Nothing else is in the text but digits and what stands between them. -/
theorem not_mem_separated (hc : c.isDigit = false) (hsep : c ≠ sep) : c ∉ separated sep ns := by
  unfold separated
  induction ns with
  | nil => exact List.not_mem_nil
  | cons n ns ih =>
    cases ns with
    | nil =>
      rw [List.map_singleton, List.intercalate_singleton]
      exact not_mem_toDigits hc
    | cons m ns =>
      rw [List.map_cons, List.map_cons, List.intercalate_cons_cons, List.mem_append,
        List.mem_append, List.mem_singleton]
      rintro ((hdigit | rfl) | hrest)
      · exact not_mem_toDigits hc hdigit
      · exact hsep rfl
      · exact ih hrest

/-- A number of `k + 1` digits. -/
theorem length_toDigits (hle : 10 ^ k ≤ n) (hlt : n < 10 ^ (k + 1)) :
    (Nat.toDigits 10 n).length = k + 1 := by
  refine le_antisymm ((Nat.length_toDigits_le_iff (by decide) k.succ_pos).mpr hlt) ?_
  cases k with
  | zero => exact Nat.length_toDigits_pos
  | succ k =>
    by_contra hlength
    have hshort : (Nat.toDigits 10 n).length ≤ k + 1 := Nat.lt_succ_iff.mp (not_le.mp hlength)
    exact absurd hle (not_le.mpr
      ((Nat.length_toDigits_le_iff (by decide) k.succ_pos).mp hshort))

/-! ## Brackets -/

/-- A text in brackets. -/
def bracketed (opening closing : Char) (text : List Char) : List Char :=
  opening :: (text ++ [closing])

/-- The text in the brackets in front, and what is behind them. -/
def readBracketed (opening closing : Char) : List Char → Option (List Char × List Char)
  | [] => none
  | c :: line =>
    if c = opening then
      some (line.takeWhile (· ≠ closing), (line.dropWhile (· ≠ closing)).drop 1)
    else none

theorem readBracketed_append (htext : closing ∉ text) (rest : List Char) :
    readBracketed opening closing (bracketed opening closing text ++ rest) = some (text, rest) := by
  have hne : ∀ c ∈ text, decide (c ≠ closing) = true := by
    intro c hc
    refine decide_eq_true ?_
    rintro rfl
    exact htext hc
  rw [bracketed, List.cons_append, readBracketed, if_pos rfl, List.append_assoc,
    List.takeWhile_append_of_pos hne, List.dropWhile_append_of_pos hne]
  simp

/-! ## Arrays of characters -/

/-- An array of characters. -/
def CharArray (n : ℕ) : Type := { chars : List Char // chars.length = n }
  deriving DecidableEq

/-- The character zero. -/
def nul : Char := Char.ofNat 0

/-- A text and a zero over what is there. -/
theorem length_overwrite (array : CharArray n) (hlt : text.length < n) :
    (text ++ nul :: array.1.drop (text.length + 1)).length = n := by
  have hlength := array.2
  rw [List.length_append, List.length_cons, List.length_drop]
  omega

/-- `sprintf` into an array.  It has no result when the text and its zero do not go into it. -/
def sprintf (array : CharArray n) (text : List Char) : Option (CharArray n) :=
  if hlt : text.length < n then some ⟨_, length_overwrite array hlt⟩ else none

/-- The string in an array, as `%s` finds it. -/
def cString (array : CharArray n) : List Char := array.1.takeWhile (· ≠ nul)

variable {array array' : CharArray n}

theorem sprintf_isSome_iff : (sprintf array text).isSome = true ↔ text.length < n := by
  unfold sprintf
  split_ifs with hlt
  · exact iff_of_true rfl hlt
  · exact iff_of_false Bool.false_ne_true hlt

/-- **What was written is what is found.** -/
theorem cString_sprintf (htext : nul ∉ text) (h : sprintf array text = some array') :
    cString array' = text := by
  unfold sprintf at h
  split_ifs at h with hlt
  obtain rfl := Option.some.inj h
  have hne : ∀ c ∈ text, decide (c ≠ nul) = true := by
    intro c hc
    refine decide_eq_true ?_
    rintro rfl
    exact htext hc
  show (text ++ nul :: array.1.drop (text.length + 1)).takeWhile (· ≠ nul) = text
  rw [List.takeWhile_append_of_pos hne]
  simp

end Format
end EasyTcpServer
