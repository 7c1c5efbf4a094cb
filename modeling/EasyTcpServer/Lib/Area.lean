import Mathlib.Data.List.Pairwise
import Mathlib.Algebra.Order.Ring.Nat

/-!
# Areas of memory

An area is an address and a number of bytes.  `Apart` says that two areas share no byte, and
`Within` that one lies in the other.  What `malloc` returns is `Fresh`: it is not null, lies in
the address space, and is apart from every area that has been returned and not been freed.

## What is provided

* `Apart.symm`, `Apart.of_within`, `Apart.start_ne`.
* `apart_of_mem`: the areas of a memory are apart from each other (`Pairwise`), which a fresh
  area and a release keep.
* `slot`: the areas of equal size that a buffer is cut into.
-/

namespace EasyTcpServer

structure Area where
  start : ℕ
  size : ℕ
  deriving DecidableEq, Repr

namespace Area

/-- The areas share no byte. -/
def Apart (r s : Area) : Prop := r.start + r.size ≤ s.start ∨ s.start + s.size ≤ r.start

/-- The first area lies in the second. -/
def Within (r s : Area) : Prop := s.start ≤ r.start ∧ r.start + r.size ≤ s.start + s.size

instance (r s : Area) : Decidable (r.Apart s) := by
  unfold Apart
  infer_instance

variable {r s r' s' : Area}

theorem Apart.symm (h : r.Apart s) : s.Apart r := Or.symm h

instance : Std.Symm Apart := ⟨fun _ _ => Apart.symm⟩

theorem Within.refl (r : Area) : r.Within r := ⟨le_refl _, le_refl _⟩

theorem Within.trans (h : r.Within s) (h' : s.Within s') : r.Within s' :=
  ⟨h'.1.trans h.1, h.2.trans h'.2⟩

theorem Apart.of_within (h : r.Apart s) (hr : r'.Within r) (hs : s'.Within s) : r'.Apart s' := by
  unfold Apart Within at *
  omega

theorem Apart.start_ne (h : r.Apart s) (hr : 0 < r.size) (hs : 0 < s.size) :
    r.start ≠ s.start := by
  unfold Apart at h
  omega

/-! ## What has been returned by `malloc` -/

/-- The area does not start at the null pointer, lies in the address space, and is apart from
all areas in use. -/
def Fresh (live : List Area) (r : Area) : Prop :=
  0 < r.start ∧ r.start + r.size ≤ 2 ^ 64 ∧ ∀ s ∈ live, r.Apart s

instance (live : List Area) (r : Area) : Decidable (Fresh live r) := by
  unfold Fresh
  infer_instance

/-- `free` of the area that starts at `a`. -/
def release (live : List Area) (a : ℕ) : List Area := live.filter fun r => r.start ≠ a

variable {live : List Area}

theorem apart_of_mem (h : live.Pairwise Apart) (hr : r ∈ live) (hs : s ∈ live)
    (hne : r ≠ s) : r.Apart s :=
  h.forall hr hs hne

theorem pairwise_cons (h : live.Pairwise Apart) (hr : Fresh live r) :
    (r :: live).Pairwise Apart :=
  List.pairwise_cons.mpr ⟨hr.2.2, h⟩

theorem pairwise_release (h : live.Pairwise Apart) (a : ℕ) : (release live a).Pairwise Apart :=
  h.filter _

theorem mem_release {a : ℕ} : r ∈ release live a ↔ r ∈ live ∧ r.start ≠ a := by
  simp [release]

/-! ## The areas a buffer is cut into -/

/-- The area number `n` of a buffer at `base`. -/
def slot (base size n : ℕ) : Area := ⟨base + n * size, size⟩

theorem slot_apart (base size : ℕ) {i j : ℕ} (h : i ≠ j) :
    (slot base size i).Apart (slot base size j) := by
  have hmul {m n : ℕ} (hlt : m < n) : m * size + size ≤ n * size := by
    rw [← Nat.succ_mul]
    exact Nat.mul_le_mul_right size hlt
  rcases Nat.lt_or_gt_of_ne h with hlt | hlt
  · have := hmul hlt
    exact Or.inl (by simp only [slot]; omega)
  · have := hmul hlt
    exact Or.inr (by simp only [slot]; omega)

theorem slot_within (base size : ℕ) {n len : ℕ} (h : n < len) :
    (slot base size n).Within ⟨base, size * len⟩ := by
  have hmul : n * size + size ≤ size * len := by
    rw [← Nat.succ_mul, Nat.mul_comm size]
    exact Nat.mul_le_mul_right size h
  exact ⟨by simp only [slot]; omega, by simp only [slot]; omega⟩

end Area
end EasyTcpServer
