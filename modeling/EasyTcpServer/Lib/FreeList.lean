import Mathlib.Data.List.Nodup
import Mathlib.Data.List.Range
import Mathlib.Logic.Function.Basic

/-!
# Lists that run through a link field

A pool keeps its free blocks in a list that is stored in the blocks themselves: each block
has a field for the next one, and the pool knows the first.  `Linked next p l` says that the
blocks met from the pointer `p` on are `l`, in this order, and that the last of them has no
next.  Such a list is finite and, since a block has one next, without repetition.

## What is provided

* `Linked.unique` and `Linked.nodup`.
* `Linked.congr` for changes of other blocks, `Linked.push` and `Linked.pop` for the two
  operations of a stack, `linked_range` for blocks that follow each other.
* `linkSlot`, the loop that links the blocks of a buffer, and what it leaves behind.
-/

namespace EasyTcpServer

variable {κ : Type*} {next next' : κ → Option κ} {p : Option κ} {a : κ} {l l' : List κ}

/-- Following `next` from `p` meets `l` and then ends. -/
def Linked (next : κ → Option κ) : Option κ → List κ → Prop
  | p, [] => p = none
  | p, a :: l => p = some a ∧ Linked next (next a) l

@[simp] theorem linked_nil : Linked next p [] ↔ p = none := Iff.rfl

@[simp] theorem linked_cons : Linked next p (a :: l) ↔ p = some a ∧ Linked next (next a) l :=
  Iff.rfl

/-- The first pointer determines the list. -/
theorem Linked.unique (h : Linked next p l) (h' : Linked next p l') : l = l' := by
  induction l generalizing p l' with
  | nil =>
    cases l' with
    | nil => rfl
    | cons a l' => exact absurd (h.symm.trans h'.1) (by simp)
  | cons a l ih =>
    cases l' with
    | nil => exact absurd (h.1.symm.trans h') (by simp)
    | cons a' l' =>
      obtain rfl : a = a' := Option.some.inj (h.1.symm.trans h'.1)
      rw [ih h.2 h'.2]

/-- From a block of the list on, following `next` meets the rest of the list. -/
theorem Linked.suffix (h : Linked next p l) (ha : a ∈ l) :
    ∃ l₁ l₂, l = l₁ ++ a :: l₂ ∧ Linked next (some a) (a :: l₂) := by
  induction l generalizing p with
  | nil => cases ha
  | cons b l ih =>
    rcases List.mem_cons.mp ha with rfl | ha
    · exact ⟨[], l, rfl, rfl, h.2⟩
    · obtain ⟨l₁, l₂, rfl, htail⟩ := ih h.2 ha
      exact ⟨b :: l₁, l₂, rfl, htail⟩

/-- **No block is met twice.**  The list from a block on is determined by the block, so it
cannot be a part of itself. -/
theorem Linked.nodup (h : Linked next p l) : l.Nodup := by
  induction l generalizing p with
  | nil => exact .nil
  | cons a l ih =>
    refine List.nodup_cons.mpr ⟨fun ha => ?_, ih h.2⟩
    obtain ⟨l₁, l₂, rfl, htail⟩ := h.2.suffix ha
    have heq : a :: (l₁ ++ a :: l₂) = a :: l₂ := Linked.unique (p := some a) ⟨rfl, h.2⟩ htail
    have hlen := congrArg List.length heq
    simp at hlen
    omega

/-- Blocks outside the list do not matter. -/
theorem Linked.congr (h : Linked next p l) (heq : ∀ a ∈ l, next' a = next a) :
    Linked next' p l := by
  induction l generalizing p with
  | nil => exact h
  | cons a l ih =>
    refine ⟨h.1, ?_⟩
    rw [heq a List.mem_cons_self]
    exact ih h.2 fun b hb => heq b (List.mem_cons_of_mem _ hb)

/-- The first block is taken off. -/
theorem Linked.pop (h : Linked next (some a) l) : ∃ l', l = a :: l' ∧ Linked next (next a) l' := by
  cases l with
  | nil => cases h
  | cons b l =>
    obtain rfl : a = b := Option.some.inj h.1
    exact ⟨l, rfl, h.2⟩

/-- A block is put in front. -/
theorem Linked.push (h : Linked next p l) (ha : a ∉ l) (hnext : next' a = p)
    (heq : ∀ b, b ≠ a → next' b = next b) : Linked next' (some a) (a :: l) := by
  refine ⟨rfl, ?_⟩
  rw [hnext]
  refine h.congr fun b hb => heq b ?_
  rintro rfl
  exact ha hb

/-- Blocks each of which points to the one behind it. -/
theorem linked_range {f : ℕ → κ} {n : ℕ} (hnext : ∀ i < n, next (f i) = some (f (i + 1)))
    (hlast : next (f n) = none) : Linked next (some (f 0)) ((List.range (n + 1)).map f) := by
  induction n generalizing f with
  | zero => exact ⟨rfl, hlast⟩
  | succ n ih =>
    rw [List.range_succ_eq_map, List.map_cons, List.map_map]
    refine ⟨rfl, ?_⟩
    rw [hnext 0 n.succ_pos]
    exact ih (f := f ∘ Nat.succ) (fun i hi => hnext (i + 1) (Nat.succ_lt_succ hi)) hlast

/-! ## Linking the blocks of a buffer

A pool links its blocks once, in a loop that keeps the block before.  Each turn writes the
next block and makes the one before point to it. -/

variable [DecidableEq κ] {ν : Type*}

/-- A turn of the loop: the blocks, and the block before. -/
def linkSlot (slot : ℕ → κ) (node : ℕ → ν) (link : ν → κ → ν) (s : (κ → ν) × κ) (n : ℕ) :
    (κ → ν) × κ :=
  let nodes := Function.update s.1 (slot n) (node n)
  (Function.update nodes s.2 (link (nodes s.2) (slot n)), slot n)

/-- The loop touches no block of another place. -/
theorem foldl_linkSlot_of_ne {slot : ℕ → κ} (node : ℕ → ν) (link : ν → κ → ν) {ns : List ℕ}
    {s : (κ → ν) × κ} (hs : a ≠ s.2) (ha : ∀ n ∈ ns, a ≠ slot n) :
    (ns.foldl (linkSlot slot node link) s).1 a = s.1 a := by
  induction ns generalizing s with
  | nil => rfl
  | cons n ns ih =>
    have hn := ha n List.mem_cons_self
    rw [List.foldl_cons, ih hn fun n' hn' => ha n' (List.mem_cons_of_mem _ hn'), linkSlot]
    dsimp only
    rw [Function.update_of_ne hs, Function.update_of_ne hn]

/-- The loop has linked the blocks up to `m`. -/
theorem foldl_linkSlot {slot : ℕ → κ} (hslot : Function.Injective slot) (node : ℕ → ν)
    (link : ν → κ → ν) (nodes : κ → ν) (m : ℕ) :
    let s := (List.range' 1 m).foldl (linkSlot slot node link)
      (Function.update nodes (slot 0) (node 0), slot 0)
    s.2 = slot m ∧
      ∀ i ≤ m, s.1 (slot i) = if i < m then link (node i) (slot (i + 1)) else node i := by
  intro s
  induction m with
  | zero =>
    refine ⟨rfl, fun i hi => ?_⟩
    obtain rfl := Nat.le_zero.mp hi
    simp [s]
  | succ m ih =>
    have hs : s = linkSlot slot node link ((List.range' 1 m).foldl (linkSlot slot node link)
        (Function.update nodes (slot 0) (node 0), slot 0)) (m + 1) := by
      simp only [s, List.range'_1_concat, List.foldl_append, List.foldl_cons, List.foldl_nil,
        Nat.add_comm 1 m]
    obtain ⟨hlast, hnodes⟩ := ih
    rw [linkSlot, hlast] at hs
    generalize ((List.range' 1 m).foldl (linkSlot slot node link)
      (Function.update nodes (slot 0) (node 0), slot 0)).1 = nodes' at hs hnodes
    rw [hs]
    refine ⟨rfl, fun i hi => ?_⟩
    dsimp only
    rcases Nat.lt_trichotomy i m with hlt | rfl | hlt
    · rw [Function.update_of_ne (hslot.ne hlt.ne), Function.update_of_ne (hslot.ne (by omega)),
        hnodes i hlt.le, if_pos hlt, if_pos (hlt.trans (Nat.lt_succ_self m))]
    · rw [Function.update_self, Function.update_of_ne (hslot.ne (Nat.succ_ne_self i).symm),
        hnodes i le_rfl, if_neg (lt_irrefl i), if_pos (Nat.lt_succ_self i)]
    · obtain rfl : i = m + 1 := by omega
      rw [Function.update_of_ne (hslot.ne (Nat.succ_ne_self m)), Function.update_self,
        if_neg (lt_irrefl _)]

end EasyTcpServer
