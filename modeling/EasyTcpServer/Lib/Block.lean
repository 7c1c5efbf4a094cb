import Mathlib.Data.Int.Notation
import Mathlib.Data.List.Basic

/-!
# A block of memory and copies into it

A block is a list of cells of fixed length.  Positions and lengths of a copy are signed
numbers, because that is what C code computes them as; a copy that would read or write a
cell outside the block has no result.

A copy reads all its source cells before it writes the first destination cell, so the
result is defined by the original contents also when source and destination overlap.  The
library's `memcpy` promises this only for ranges that do not overlap.
-/

namespace EasyTcpServer

variable {α : Type*}

namespace Block

/-- Write `cells` at position `dst`, inside the block. -/
def write (mem : List α) (dst : ℤ) (cells : List α) : Option (List α) :=
  if 0 ≤ dst ∧ dst + cells.length ≤ mem.length then
    some (mem.take dst.toNat ++ cells ++ mem.drop (dst.toNat + cells.length))
  else none

/-- The `n` cells from position `src` on, inside the block. -/
def read (mem : List α) (src n : ℤ) : Option (List α) :=
  if 0 ≤ src ∧ 0 ≤ n ∧ src + n ≤ mem.length then some ((mem.drop src.toNat).take n.toNat)
  else none

/-- Copy `n` cells from position `src` to position `dst` of one block. -/
def copyWithin (mem : List α) (dst src n : ℤ) : Option (List α) :=
  (read mem src n).bind fun cells => write mem dst cells

/-- `memcpy` inside one block.  What it leaves of overlapping ranges is not defined. -/
def memcpy (mem : List α) (dst src n : ℤ) : Option (List α) :=
  if dst + n ≤ src ∨ src + n ≤ dst then copyWithin mem dst src n else none

variable {mem cells mem' : List α}

theorem memcpy_eq_copyWithin {dst src n : ℤ} (h : dst + n ≤ src ∨ src + n ≤ dst) :
    memcpy mem dst src n = copyWithin mem dst src n := if_pos h

theorem write_eq_some {dst : ℤ} (h : 0 ≤ dst) (hle : dst + cells.length ≤ mem.length) :
    write mem dst cells =
      some (mem.take dst.toNat ++ cells ++ mem.drop (dst.toNat + cells.length)) := by
  unfold write
  rw [if_pos ⟨h, hle⟩]

/-- Writing keeps the block's length, and what stands in front of the end of the write is
the old front followed by the cells written. -/
theorem write_spec {dst : ℤ} (h : write mem dst cells = some mem') :
    mem'.length = mem.length ∧
      mem'.take (dst.toNat + cells.length) = mem.take dst.toNat ++ cells := by
  unfold write at h
  split at h
  · rename_i hbounds
    rw [Option.some.injEq] at h
    have hdst : dst.toNat ≤ mem.length := by omega
    refine ⟨?_, ?_⟩
    · rw [← h]
      simp only [List.length_append, List.length_take, List.length_drop]
      omega
    · rw [← h, List.take_left']
      rw [List.length_append, List.length_take, Nat.min_eq_left hdst]
  · simp at h

/-- A write leaves what stands in front of it. -/
theorem take_write {dst : ℤ} (h : write mem dst cells = some mem') :
    mem'.take dst.toNat = mem.take dst.toNat := by
  obtain ⟨hlength, htake⟩ := write_spec h
  have hfront : (mem'.take (dst.toNat + cells.length)).take dst.toNat = mem'.take dst.toNat := by
    rw [List.take_take, Nat.min_eq_left (Nat.le_add_right _ _)]
  rw [← hfront, htake]
  by_cases hdst : dst.toNat ≤ mem.length
  · rw [List.take_left']
    rw [List.length_take, Nat.min_eq_left hdst]
  · unfold write at h
    rw [Option.ite_none_right_eq_some] at h
    omega

/-- What was written stands where it was written. -/
theorem read_write {dst : ℤ} (h : write mem dst cells = some mem') :
    (mem'.drop dst.toNat).take cells.length = cells := by
  obtain ⟨-, htake⟩ := write_spec h
  rw [← List.append_right_inj (mem.take dst.toNat), ← htake, ← take_write h, ← List.take_add]

theorem read_eq_some {src n : ℤ} (hsrc : 0 ≤ src) (hn : 0 ≤ n)
    (hle : src + n ≤ mem.length) :
    read mem src n = some ((mem.drop src.toNat).take n.toNat) := by
  unfold read
  rw [if_pos ⟨hsrc, hn, hle⟩]

theorem read_eq_none_of_neg {src n : ℤ} (hsrc : src < 0) : read mem src n = none := by
  unfold read
  rw [if_neg fun h => absurd h.1 (by omega)]

/-- Moving the cells from `src` on to the front of the block. -/
theorem copyWithin_front {src n : ℤ} (hsrc : 0 ≤ src) (hn : 0 ≤ n)
    (hle : src + n ≤ mem.length) :
    ∃ mem', copyWithin mem 0 src n = some mem' ∧ mem'.length = mem.length ∧
      mem'.take n.toNat = (mem.drop src.toNat).take n.toNat := by
  have hlen : ((mem.drop src.toNat).take n.toNat).length = n.toNat := by
    rw [List.length_take, List.length_drop]
    omega
  obtain ⟨mem', hwrite⟩ : ∃ mem', write mem 0 ((mem.drop src.toNat).take n.toNat) = some mem' :=
    ⟨_, write_eq_some (by omega) (by rw [hlen]; omega)⟩
  obtain ⟨hlength, htake⟩ := write_spec hwrite
  refine ⟨mem', ?_, hlength, ?_⟩
  · rw [copyWithin, read_eq_some hsrc hn hle]
    exact hwrite
  · rw [hlen] at htake
    simpa using htake

theorem copyWithin_eq_none_of_neg {dst src n : ℤ} (hsrc : src < 0) :
    copyWithin mem dst src n = none := by
  rw [copyWithin, read_eq_none_of_neg hsrc]
  rfl

end Block
end EasyTcpServer
