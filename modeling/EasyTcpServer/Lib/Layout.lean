import Mathlib.Algebra.Group.Nat.Defs
import Mathlib.Data.List.GetD
import Mathlib.Data.Nat.Notation
import Mathlib.Tactic.Common

/-!
# Fields of a record in memory

A record is a run of bytes, each field at an offset of its own.  A field is an array of bytes or
a number, low byte first.  Reading a field looks at nothing but its own bytes, so it gives the
same behind anything that stands in front and whatever follows.

* `littleEndian`, `ofLittleEndian`: the bytes of a number and back.
* `chars`, `word`: reading an array and a number at an offset, with the lemmas that step over
  what stands in front and that find the field at the front.
-/

namespace EasyTcpServer
namespace Layout

/-- The lowest `n` bytes of a number, low byte first. -/
def littleEndian : ℕ → ℕ → List UInt8
  | 0, _ => []
  | n + 1, v => UInt8.ofNat v :: littleEndian n (v / 256)

/-- The number with these bytes. -/
def ofLittleEndian : List UInt8 → ℕ
  | [] => 0
  | b :: bs => b.toNat + 256 * ofLittleEndian bs

@[simp] theorem length_littleEndian (n v : ℕ) : (littleEndian n v).length = n := by
  induction n generalizing v with
  | zero => rfl
  | succ n ih => rw [littleEndian, List.length_cons, ih]

theorem ofLittleEndian_littleEndian {n v : ℕ} (h : v < 256 ^ n) :
    ofLittleEndian (littleEndian n v) = v := by
  induction n generalizing v with
  | zero =>
    rw [Nat.pow_zero, Nat.lt_one_iff] at h
    rw [h]
    rfl
  | succ n ih =>
    have hrest : v / 256 < 256 ^ n := by
      rw [Nat.div_lt_iff_lt_mul (by decide), ← Nat.pow_succ]
      exact h
    have hlow : (UInt8.ofNat v).toNat = v % 256 := UInt8.toNat_ofNat'
    rw [littleEndian, ofLittleEndian, ih hrest, hlow]
    omega

/-- An array of `n` bytes at an offset. -/
def chars (bytes : List UInt8) (off n : ℕ) : Vector UInt8 n :=
  Vector.ofFn fun i => bytes.getD (off + i) 0

/-- A number of `n` bytes at an offset. -/
def word (bytes : List UInt8) (off n : ℕ) : BitVec (8 * n) :=
  BitVec.ofNat (8 * n) (ofLittleEndian ((bytes.drop off).take n))

/-- The bytes of a number of `n` bytes. -/
def wordBytes {n : ℕ} (v : BitVec (8 * n)) : List UInt8 := littleEndian n v.toNat

@[simp] theorem length_wordBytes {n : ℕ} (v : BitVec (8 * n)) : (wordBytes v).length = n :=
  length_littleEndian n v.toNat

variable {xs ys : List UInt8} {off n : ℕ}

theorem chars_append_of_le (h : xs.length ≤ off) :
    chars (xs ++ ys) off n = chars ys (off - xs.length) n := by
  refine Vector.ext fun i hi => ?_
  simp only [chars, Vector.getElem_ofFn]
  rw [List.getD_append_right _ _ _ _ (by omega)]
  congr 1
  omega

theorem chars_append_self (v : Vector UInt8 n) (ys : List UInt8) :
    chars (v.toList ++ ys) 0 n = v := by
  refine Vector.ext fun i hi => ?_
  have hlen : i < v.toList.length := by rwa [Vector.length_toList]
  simp only [chars, Vector.getElem_ofFn, Nat.zero_add]
  rw [List.getD_append _ _ _ _ hlen, List.getD_eq_getElem _ _ hlen, Vector.getElem_toList]

theorem word_append_of_le (h : xs.length ≤ off) :
    word (xs ++ ys) off n = word ys (off - xs.length) n := by
  rw [word, List.drop_append, List.drop_eq_nil_of_le h, List.nil_append, word]

theorem word_append_self (v : BitVec (8 * n)) (ys : List UInt8) :
    word (wordBytes v ++ ys) 0 n = v := by
  have hlt : v.toNat < 256 ^ n := by
    have hv := v.isLt
    rwa [Nat.pow_mul] at hv
  have htake : (wordBytes v ++ ys).take n = wordBytes v := by
    rw [List.take_append_of_le_length (Nat.le_of_eq (length_wordBytes v).symm),
      List.take_of_length_le (Nat.le_of_eq (length_wordBytes v))]
  rw [word, List.drop_zero, htake, wordBytes, ofLittleEndian_littleEndian hlt,
    BitVec.ofNat_toNat, BitVec.setWidth_eq]

end Layout
end EasyTcpServer
