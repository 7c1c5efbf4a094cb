import Mathlib.Data.Int.Notation
import Mathlib.Data.List.Basic

/-!
# Greedy framing of a symbol stream

A stream is cut into frames by a length written at the front of each frame.  The length
is read off the first `headerSize` symbols and counts the whole frame, header included.
It is a signed number that the sender chooses freely, so it may also be zero or negative;
what a reader does then is not a matter of the format, and the definitions below say
only which cuts have a meaning.

## What is provided

* `Complete`: a whole frame stands at the front.  It says nothing about the sign.
* `Cuts xs ms ys`: cutting frames of nonnegative length off `xs` yields the frames `ms`
  and leaves `ys`.  Cuts compose (`Cuts.snoc`), survive more symbols arriving
  (`Cuts.append_right`) and are linearly ordered (`Cuts.linear`).
* `parse`: the greedy reference parser, cutting as long as a complete frame of positive
  length stands at the front.
* `Meets`, `HeadersSatisfy`: the headers the parser looks at, complete frame or not, and
  the statement that their lengths all satisfy a predicate.

The two views meet in `Cuts.eq_parse`: when every header met is positive, a sequence of
cuts that cannot be continued is the parse.
-/

namespace EasyTcpServer

variable {α : Type*}

/-- A framing format: where the length of a frame is read from. -/
structure Format (α : Type*) where
  /-- How many symbols are needed to read the length. -/
  headerSize : ℕ
  /-- The declared length of the frame at the front. -/
  declared : List α → ℤ
  /-- The length is read off the header alone. -/
  declared_append : ∀ xs ys, headerSize ≤ xs.length → declared (xs ++ ys) = declared xs

namespace Format

variable (F : Format α)

/-- The header and as many symbols as it declares are there. -/
def Complete (xs : List α) : Prop :=
  F.headerSize ≤ xs.length ∧ F.declared xs ≤ xs.length

instance (xs : List α) : Decidable (F.Complete xs) := by
  unfold Complete
  infer_instance

/-- The declared length as a number of symbols. -/
def size (xs : List α) : ℕ := (F.declared xs).toNat

variable {F}

theorem Complete.size_le {xs : List α} (h : F.Complete xs) : F.size xs ≤ xs.length := by
  have := h.2
  unfold size
  omega

theorem size_append {xs : List α} (ys : List α) (h : F.headerSize ≤ xs.length) :
    F.size (xs ++ ys) = F.size xs := by
  unfold size
  rw [F.declared_append xs ys h]

theorem Complete.append_right {xs : List α} (h : F.Complete xs) (ys : List α) :
    F.Complete (xs ++ ys) := by
  refine ⟨?_, ?_⟩
  · rw [List.length_append]
    exact Nat.le_add_right_of_le h.1
  · rw [F.declared_append xs ys h.1, List.length_append]
    have := h.2
    omega

/-- A complete frame is cut off the same way however much follows it. -/
theorem take_append_of_complete {xs : List α} (h : F.Complete xs) (ys : List α) :
    (xs ++ ys).take (F.size (xs ++ ys)) = xs.take (F.size xs) := by
  rw [size_append ys h.1, List.take_append_of_le_length h.size_le]

theorem drop_append_of_complete {xs : List α} (h : F.Complete xs) (ys : List α) :
    (xs ++ ys).drop (F.size (xs ++ ys)) = xs.drop (F.size xs) ++ ys := by
  rw [size_append ys h.1, List.drop_append_of_le_length h.size_le]

/-- A frame of positive length takes something away. -/
theorem length_drop_lt {xs : List α} (h : F.Complete xs) (hpos : 0 < F.declared xs) :
    (xs.drop (F.size xs)).length < xs.length := by
  have := h.2
  rw [List.length_drop]
  unfold size
  omega

/-! ## Sequences of cuts -/

variable (F)

/-- Cutting frames of nonnegative length off `xs` yields `ms` and leaves `ys`. -/
inductive Cuts : List α → List (List α) → List α → Prop where
  | nil (xs : List α) : Cuts xs [] xs
  | cons {xs ys : List α} {ms : List (List α)} :
      F.Complete xs → 0 ≤ F.declared xs → Cuts (xs.drop (F.size xs)) ms ys →
        Cuts xs (xs.take (F.size xs) :: ms) ys

variable {F}

theorem Cuts.append_right {xs ys : List α} {ms : List (List α)} (h : F.Cuts xs ms ys)
    (zs : List α) : F.Cuts (xs ++ zs) ms (ys ++ zs) := by
  induction h with
  | nil => exact .nil _
  | @cons xs ys ms hcomplete hnonneg _ ih =>
    rw [← take_append_of_complete hcomplete zs]
    refine .cons (hcomplete.append_right zs) ?_ ?_
    · rwa [F.declared_append xs zs hcomplete.1]
    · rwa [drop_append_of_complete hcomplete zs]

theorem Cuts.trans {xs ys zs : List α} {ms ns : List (List α)} (h : F.Cuts xs ms ys)
    (h' : F.Cuts ys ns zs) : F.Cuts xs (ms ++ ns) zs := by
  induction h with
  | nil => exact h'
  | cons hcomplete hnonneg _ ih => exact .cons hcomplete hnonneg (ih h')

/-- Cutting one more frame. -/
theorem Cuts.snoc {xs ys : List α} {ms : List (List α)} (h : F.Cuts xs ms ys)
    (hcomplete : F.Complete ys) (hnonneg : 0 ≤ F.declared ys) :
    F.Cuts xs (ms ++ [ys.take (F.size ys)]) (ys.drop (F.size ys)) :=
  h.trans (.cons hcomplete hnonneg (.nil _))

/-- A declared length of zero can be cut any number of times. -/
theorem cuts_replicate_nil {xs : List α} (hcomplete : F.Complete xs) (hzero : F.declared xs = 0)
    (k : ℕ) : F.Cuts xs (List.replicate k []) xs := by
  have hsize : F.size xs = 0 := by
    unfold size
    omega
  induction k with
  | zero => exact .nil xs
  | succ k ih =>
    have hcut : F.Cuts xs (xs.take (F.size xs) :: List.replicate k []) xs :=
      .cons hcomplete (by omega) (by rwa [hsize, List.drop_zero])
    rwa [hsize, List.take_zero] at hcut

/-- **Cuts of one stream are linearly ordered.**  Each position determines the next cut,
so of two sequences of cuts one continues the other. -/
theorem Cuts.linear {xs ys zs : List α} {ms ns : List (List α)} (h : F.Cuts xs ms ys)
    (h' : F.Cuts xs ns zs) : (∃ ks, F.Cuts ys ks zs) ∨ ∃ ks, F.Cuts zs ks ys := by
  induction h generalizing ns with
  | nil => exact Or.inl ⟨ns, h'⟩
  | cons hcomplete hnonneg hcuts ih =>
    cases h' with
    | nil => exact Or.inr ⟨_, .cons hcomplete hnonneg hcuts⟩
    | cons _ _ hcuts' => exact ih hcuts'

/-! ## The headers met -/

variable (F)

/-- Some sequence of cuts of `xs` arrives at `ys`, and a header stands there. -/
def Meets (xs ys : List α) : Prop :=
  (∃ ms, F.Cuts xs ms ys) ∧ F.headerSize ≤ ys.length

/-- Every header the parser meets, the last incomplete one included, declares a length
with the property `P`. -/
def HeadersSatisfy (P : ℤ → Prop) (xs : List α) : Prop :=
  ∀ ys, F.Meets xs ys → P (F.declared ys)

variable {F} {P Q : ℤ → Prop}

theorem HeadersSatisfy.mono (h : ∀ n, P n → Q n) {xs : List α}
    (hxs : F.HeadersSatisfy P xs) : F.HeadersSatisfy Q xs :=
  fun ys hys => h _ (hxs ys hys)

/-- The condition on a stream is a condition on what any cuts leave of it. -/
theorem HeadersSatisfy.of_cuts {xs ys : List α} {ms : List (List α)}
    (h : F.HeadersSatisfy P xs) (hcuts : F.Cuts xs ms ys) : F.HeadersSatisfy P ys := by
  rintro zs ⟨⟨ns, hns⟩, hlen⟩
  exact h zs ⟨⟨ms ++ ns, hcuts.trans hns⟩, hlen⟩

theorem HeadersSatisfy.declared {xs : List α} (h : F.HeadersSatisfy P xs)
    (hlen : F.headerSize ≤ xs.length) : P (F.declared xs) :=
  h xs ⟨⟨[], .nil xs⟩, hlen⟩

/-- The headers of a stream are the one at its front and, if a frame can be cut there,
those behind it. -/
theorem headersSatisfy_iff {xs : List α} :
    F.HeadersSatisfy P xs ↔ (F.headerSize ≤ xs.length → P (F.declared xs)) ∧
      (F.Complete xs → 0 ≤ F.declared xs → F.HeadersSatisfy P (xs.drop (F.size xs))) := by
  constructor
  · intro h
    exact ⟨h.declared, fun hcomplete hnonneg => h.of_cuts (.cons hcomplete hnonneg (.nil _))⟩
  · rintro ⟨hfront, hrest⟩ ys ⟨⟨ms, hms⟩, hlen⟩
    cases hms with
    | nil => exact hfront hlen
    | cons hcomplete hnonneg hcuts => exact hrest hcomplete hnonneg ys ⟨⟨_, hcuts⟩, hlen⟩

/-! ## The reference parser -/

variable (F)

/-- The greedy parser: the frames, and the remainder that holds no complete one.  A
length that is not positive cannot be cut, so the parser stops in front of it. -/
def parse (xs : List α) : List (List α) × List α :=
  if _h : F.Complete xs ∧ 0 < F.declared xs then
    (xs.take (F.size xs) :: (parse (xs.drop (F.size xs))).1, (parse (xs.drop (F.size xs))).2)
  else ([], xs)
termination_by xs.length
decreasing_by all_goals exact length_drop_lt _h.1 _h.2

variable {F}

theorem parse_of_complete {xs : List α} (h : F.Complete xs) (hpos : 0 < F.declared xs) :
    F.parse xs = (xs.take (F.size xs) :: (F.parse (xs.drop (F.size xs))).1,
      (F.parse (xs.drop (F.size xs))).2) := by
  rw [parse, dif_pos ⟨h, hpos⟩]

theorem parse_of_not_complete {xs : List α} (h : ¬ F.Complete xs) : F.parse xs = ([], xs) := by
  rw [parse, dif_neg fun h' => h h'.1]

/-- The parser takes every sequence of cuts and goes on behind it. -/
theorem Cuts.parse_append {xs ys : List α} {ms : List (List α)} (h : F.Cuts xs ms ys)
    (hpos : F.HeadersSatisfy (0 < ·) xs) :
    F.parse xs = (ms ++ (F.parse ys).1, (F.parse ys).2) := by
  induction h with
  | nil => rfl
  | cons hcomplete hnonneg hcuts ih =>
    have hrest := hpos.of_cuts (.cons hcomplete hnonneg (.nil _))
    rw [parse_of_complete hcomplete (hpos.declared hcomplete.1), ih hrest, List.cons_append]

/-- **Cuts that cannot be continued are the parse.** -/
theorem Cuts.eq_parse {xs ys : List α} {ms : List (List α)} (h : F.Cuts xs ms ys)
    (hpos : F.HeadersSatisfy (0 < ·) xs) (hend : ¬ F.Complete ys) : F.parse xs = (ms, ys) := by
  rw [h.parse_append hpos, parse_of_not_complete hend, List.append_nil]

/-- What is too short for the frame it announces is shorter than any bound on the header
and on the announced length. -/
theorem length_lt_of_not_complete {xs : List α} {n : ℕ} (h : ¬ F.Complete xs)
    (hheader : F.headerSize ≤ n) (hle : F.HeadersSatisfy (· ≤ n) xs) : xs.length < n := by
  by_contra hge
  have hlen : F.headerSize ≤ xs.length := by omega
  have hdecl : F.declared xs ≤ n := hle.declared hlen
  exact h ⟨hlen, by omega⟩

end Format
end EasyTcpServer
