import Mathlib.Data.Int.Notation
import Mathlib.Data.List.Basic

/-!
# C strings

A string literal is its characters and a terminating zero.  `strcmp` reads two memories from a
pointer on, character by character, up to the first difference or the end of both strings; it
does not know where the object ends that a pointer points into.

Compared with a literal, `strcmp` reads no more than the literal's length, and it answers zero
exactly when the literal stands at the front of the memory (`strcmp_literal`).  When only the
front `xs` of the memory is known, the answer is open as long as `xs` agrees with the literal
and is shorter than it: both answers are then possible (`Agrees.isPrefix_complete`,
`not_isPrefix_of_lt`).
-/

namespace EasyTcpServer

/-- `strcmp`, which compares the characters as `unsigned char`.  It has no result when it reads
past the end of a memory. -/
def strcmp : List UInt8 → List UInt8 → Option ℤ
  | a :: as, b :: bs =>
    if a = b then if a = 0 then some 0 else strcmp as bs
    else some ((a.toNat : ℤ) - b.toNat)
  | _, _ => none

/-- The literal with these characters. -/
def literal (chars : List UInt8) : List UInt8 := chars ++ [0]

/-- As far as they go, the bytes are those of the literal. -/
def Agrees (xs lit : List UInt8) : Prop := ∀ i < lit.length, i < xs.length → xs[i]? = lit[i]?

instance (xs lit : List UInt8) : Decidable (Agrees xs lit) := by
  unfold Agrees
  infer_instance

variable {chars xs ys lit : List UInt8}

/-- **Comparison with a literal.**  In a memory that has room for the literal there is an
answer, and it is zero exactly when the literal stands in front. -/
theorem strcmp_literal (hchars : 0 ∉ chars) (hlen : (literal chars).length ≤ xs.length) :
    ∃ r, strcmp xs (literal chars) = some r ∧ (r = 0 ↔ literal chars <+: xs) := by
  induction chars generalizing xs with
  | nil =>
    cases xs with
    | nil => exact absurd hlen (by simp [literal])
    | cons a xs =>
      by_cases ha : a = 0
      · exact ⟨0, by simp [strcmp, literal, ha], by simp [literal, ha]⟩
      · refine ⟨a.toNat, by simp [strcmp, literal, ha], ?_⟩
        have hne : a.toNat ≠ 0 := fun h => ha (UInt8.toNat_inj.mp h)
        simpa [literal, hne] using Ne.symm ha
  | cons b chars ih =>
    cases xs with
    | nil => exact absurd hlen (by simp [literal])
    | cons a xs =>
      obtain ⟨hb, hchars⟩ : b ≠ 0 ∧ 0 ∉ chars := by
        simpa [eq_comm] using hchars
      by_cases hab : a = b
      · obtain ⟨r, hr, hiff⟩ := ih hchars (Nat.le_of_succ_le_succ hlen)
        refine ⟨r, ?_, ?_⟩
        · rw [← hr]
          simp [strcmp, literal, hab, hb]
        · rw [hiff, hab]
          simp [literal]
      · refine ⟨(a.toNat : ℤ) - b.toNat, by simp [strcmp, literal, hab], ?_⟩
        have hne : a.toNat ≠ b.toNat := fun h => hab (UInt8.toNat_inj.mp h)
        have hpre : ¬ literal (b :: chars) <+: a :: xs := by
          simp [literal, Ne.symm hab]
        exact iff_of_false (by omega) hpre

/-- A literal that stands in front of a memory agrees with every part of it. -/
theorem Agrees.of_isPrefix (h : lit <+: xs ++ ys) : Agrees xs lit := by
  intro i hlit hxs
  rw [List.prefix_iff_getElem?] at h
  rw [List.getElem?_eq_getElem hlit, ← h i hlit, List.getElem?_append_left hxs]

/-- Bytes that agree with the literal can be completed by the literal's own. -/
theorem Agrees.isPrefix_complete (h : Agrees xs lit) (hys : lit.drop xs.length <+: ys) :
    lit <+: xs ++ ys := by
  rw [List.prefix_iff_getElem?] at hys ⊢
  intro i hi
  rcases Nat.lt_or_ge i xs.length with hlt | hge
  · rw [List.getElem?_append_left hlt, h i hi hlt, List.getElem?_eq_getElem hi]
  · have hi' : i - xs.length < (lit.drop xs.length).length := by
      rw [List.length_drop]
      omega
    rw [List.getElem?_append_right hge, hys _ hi', List.getElem_drop]
    congr 2
    omega

/-- Bytes that are shorter than the literal can be continued so that the literal does not stand
there. -/
theorem not_isPrefix_of_lt {a : UInt8} {n : ℕ} (ha : a ∉ lit) (hlt : xs.length < lit.length)
    (hn : lit.length ≤ xs.length + n) : ¬ lit <+: xs ++ List.replicate n a := by
  intro h
  rw [List.prefix_iff_getElem?] at h
  have hlast := h xs.length hlt
  rw [List.getElem?_append_right (Nat.le_refl _), Nat.sub_self, List.getElem?_replicate,
    if_pos (by omega), Option.some.injEq] at hlast
  exact ha (hlast ▸ List.getElem_mem _)

/-! ## A field behind a known front

The front `m` of a memory is known, and the literal is compared with the bytes from `off` on. -/

variable {m full : List UInt8} {off : ℕ}

theorem agrees_drop_of_isPrefix {zs : List UInt8} (h : lit <+: (m ++ zs).drop off) :
    Agrees (m.drop off) lit := by
  rw [List.drop_append] at h
  exact .of_isPrefix h

/-- The memory can be the one that has the literal in the field. -/
theorem Agrees.isPrefix_drop (h : Agrees (m.drop off) lit) (hfull : lit <+: full.drop off) :
    lit <+: (m ++ full.drop m.length).drop off := by
  rw [List.drop_append]
  refine h.isPrefix_complete ?_
  have hdrop : (full.drop m.length).drop (off - m.length) =
      (full.drop off).drop (m.drop off).length := by
    rw [List.drop_drop, List.drop_drop, List.length_drop]
    congr 1
    omega
  obtain ⟨zs, hzs⟩ := hfull
  rw [hdrop, ← hzs, List.drop_append]
  exact List.prefix_append _ _

/-- The memory can be one that has not. -/
theorem not_isPrefix_drop {a : UInt8} {n : ℕ} (ha : a ∉ lit) (hpos : 0 < lit.length)
    (hlt : m.length < off + lit.length) (hn : off + lit.length ≤ m.length + n) :
    ¬ lit <+: (m ++ List.replicate n a).drop off := by
  rw [List.drop_append, List.drop_replicate]
  refine not_isPrefix_of_lt ha ?_ ?_ <;> rw [List.length_drop] <;> omega

/-- Once the known front covers the field, nothing behind it matters. -/
theorem isPrefix_drop_append_iff {zs : List UInt8} (hle : off + lit.length ≤ m.length) :
    lit <+: (m ++ zs).drop off ↔ lit <+: m.drop off := by
  rw [List.drop_append_of_le_length (by omega)]
  refine ⟨fun h => ?_, fun h => h.trans (List.prefix_append _ _)⟩
  exact List.prefix_of_prefix_length_le h (List.prefix_append _ _) (by
    rw [List.length_drop]
    omega)

end EasyTcpServer
