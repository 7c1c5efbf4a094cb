import EasyTcpServer.Lib.FreeList
import Mathlib.Algebra.Order.Ring.Nat
import Mathlib.Data.Set.Insert

/-!
# `ObjectPool`

A class derived from `ObjectPoolBase` gets its objects from a buffer of `nPoolLen` slots.  A
slot is a `NodeHeader` with room for an object behind it, and the free slots are a list
through the headers.  When the list is empty an object is taken from the global `operator
new[]`, with a header of its own.

Addresses are numbers, and the memory of the headers is a function on them.  What `operator
new[]` returns for a size is the parameter `new`.  The functions are those of a build without
assertions; the two assertions are propositions of their own.

* `Valid`: the list runs through exactly the slots whose objects are not live.
* `Valid.allocObject`, `Valid.freeObjectMemory`: it is kept, an object that is handed out was
  not live, and no assertion fails.
-/

namespace EasyTcpServer

structure NodeHeader where
  pNext : Option ℕ
  nID : ℤ
  nRef : UInt8
  bPool : Bool
  deriving DecidableEq, Repr

/-- `sizeof(NodeHeader)`. -/
def sizeofNodeHeader : ℕ := 16

/-- The pool of a class, given `sizeof(Type)`. -/
structure ObjectPool (sizeofType nPoolLen : ℕ) where
  pHeader : Option ℕ
  pBuf : ℕ
  nodes : ℕ → NodeHeader

namespace ObjectPool

variable {sizeofType nPoolLen : ℕ}

/-- The address of the header of a slot. -/
def slotAt (sizeofType pBuf n : ℕ) : ℕ := pBuf + n * (sizeofType + sizeofNodeHeader)

/-- The loop body of `initObjectPool`: the headers, and `pTemp1`. -/
def initNode (sizeofType pBuf : ℕ) : (ℕ → NodeHeader) × ℕ → ℕ → (ℕ → NodeHeader) × ℕ :=
  linkSlot (slotAt sizeofType pBuf) (fun n => ⟨none, n, 0, true⟩)
    fun pTemp1 pTemp2 => { pTemp1 with pNext := some pTemp2 }

/-- `initObjectPool`, with the buffer at `pBuf` and the memory as it was before. -/
def initObjectPool (sizeofType nPoolLen pBuf : ℕ) (nodes : ℕ → NodeHeader) :
    ObjectPool sizeofType nPoolLen :=
  let nodes := Function.update nodes pBuf ⟨none, 0, 0, true⟩
  ⟨some pBuf, pBuf, ((List.range' 1 (nPoolLen - 1)).foldl (initNode sizeofType pBuf)
    (nodes, pBuf)).1⟩

variable (p : ObjectPool sizeofType nPoolLen)

/-- `allocObject`: the pool and the address handed out. -/
def allocObject (nSize : ℕ) (new : ℕ → ℕ) : ObjectPool sizeofType nPoolLen × ℕ :=
  match p.pHeader with
  | none =>
    let pReturn := new (nSize + sizeofNodeHeader)
    ({ p with nodes := Function.update p.nodes pReturn ⟨none, -1, 1, false⟩ },
      pReturn + sizeofNodeHeader)
  | some pReturn =>
    ({ p with
        pHeader := (p.nodes pReturn).pNext
        nodes := Function.update p.nodes pReturn { p.nodes pReturn with nRef := 1 } },
      pReturn + sizeofNodeHeader)

/-- `assert(0 == pReturn->nRef)` in `allocObject`. -/
def AllocAssert : Prop := ∀ pReturn, p.pHeader = some pReturn → (p.nodes pReturn).nRef = 0

/-- `freeObjectMemory`: the pool, the block given to the global `operator delete`, and what is
returned. -/
def freeObjectMemory (pMem : ℕ) : ObjectPool sizeofType nPoolLen × Option ℕ × ℤ :=
  let pBlock := pMem - sizeofNodeHeader
  let nRef := (p.nodes pBlock).nRef - 1
  let nodes := Function.update p.nodes pBlock { p.nodes pBlock with nRef := nRef }
  if (p.nodes pBlock).bPool then
    if nRef ≠ 0 then ({ p with nodes := nodes }, none, -1)
    else
      ({ p with
          pHeader := some pBlock
          nodes := Function.update nodes pBlock { nodes pBlock with pNext := p.pHeader } },
        none, 0)
  else
    if nRef ≠ 0 then ({ p with nodes := nodes }, none, -1)
    else ({ p with nodes := nodes }, some pBlock, 0)

/-- `assert(1 == pBlock->nRef)` in `freeObjectMemory`. -/
def FreeAssert (pMem : ℕ) : Prop := (p.nodes (pMem - sizeofNodeHeader)).nRef = 1

/-! ## Validity -/

/-- The address of the header of a slot. -/
def slot (n : ℕ) : ℕ := slotAt sizeofType p.pBuf n

def IsSlot (a : ℕ) : Prop := ∃ n < nPoolLen, a = p.slot n

def next (a : ℕ) : Option ℕ := (p.nodes a).pNext

/-- What holds of a pool when the blocks `live` are those in use. -/
structure Valid (live : Set ℕ) : Prop where
  free : ∃ l, Linked p.next p.pHeader l ∧ ∀ a, a ∈ l ↔ p.IsSlot a ∧ a ∉ live
  pooled : ∀ a, p.IsSlot a → (p.nodes a).bPool = true
  unused : ∀ a, p.IsSlot a → a ∉ live → (p.nodes a).nRef = 0
  used : ∀ a ∈ live, (p.nodes a).nRef = 1 ∧ ((p.nodes a).bPool = true → p.IsSlot a)

variable {p} {live : Set ℕ}

theorem Valid.allocAssert (h : p.Valid live) : p.AllocAssert := by
  intro pReturn hheader
  obtain ⟨l, hlinked, hl⟩ := h.free
  rw [hheader] at hlinked
  obtain ⟨l', rfl, -⟩ := hlinked.pop
  obtain ⟨hslot, hfree⟩ := (hl pReturn).mp List.mem_cons_self
  exact h.unused pReturn hslot hfree

theorem Valid.freeAssert (h : p.Valid live) {a : ℕ} (ha : a ∈ live) :
    p.FreeAssert (a + sizeofNodeHeader) := by
  rw [FreeAssert, Nat.add_sub_cancel]
  exact (h.used a ha).1

/-- What is to be shown when only the block `a` changes. -/
theorem Valid.of_agree (h : p.Valid live) {q : ObjectPool sizeofType nPoolLen} {live' : Set ℕ}
    {a : ℕ} (hbuf : q.pBuf = p.pBuf) (hnodes : ∀ b, b ≠ a → q.nodes b = p.nodes b)
    (hlive : ∀ b, b ≠ a → (b ∈ live' ↔ b ∈ live))
    (hfree : ∃ l, Linked q.next q.pHeader l ∧ ∀ b, b ∈ l ↔ p.IsSlot b ∧ b ∉ live')
    (hpooled : p.IsSlot a → (q.nodes a).bPool = true)
    (hunused : p.IsSlot a → a ∉ live' → (q.nodes a).nRef = 0)
    (hused : a ∈ live' → (q.nodes a).nRef = 1 ∧ ((q.nodes a).bPool = true → p.IsSlot a)) :
    q.Valid live' := by
  have hslot (b : ℕ) : q.IsSlot b ↔ p.IsSlot b := by simp only [IsSlot, slot, hbuf]
  simp only [← hslot] at hfree hpooled hunused hused
  refine ⟨hfree, fun b hb => ?_, fun b hb hout => ?_, fun b hb => ?_⟩ <;> by_cases hba : b = a
  · exact hba ▸ hpooled (hba ▸ hb)
  · rw [hnodes b hba]
    exact h.pooled b ((hslot b).mp hb)
  · exact hba ▸ hunused (hba ▸ hb) (hba ▸ hout)
  · rw [hnodes b hba]
    exact h.unused b ((hslot b).mp hb) fun hin => hout ((hlive b hba).mpr hin)
  · exact hba ▸ hused (hba ▸ hb)
  · rw [hnodes b hba, hslot]
    exact h.used b ((hlive b hba).mp hb)

/-! ## The new pool -/

theorem slotAt_injective (pBuf : ℕ) : Function.Injective (slotAt sizeofType pBuf) := fun _ _ h =>
  Nat.eq_of_mul_eq_mul_right (Nat.add_pos_right _ (by decide)) (Nat.add_left_cancel h)

theorem slotAt_zero (pBuf : ℕ) : slotAt sizeofType pBuf 0 = pBuf := by
  rw [slotAt, Nat.zero_mul, Nat.add_zero]

theorem valid_initObjectPool (hlen : 1 ≤ nPoolLen) (pBuf : ℕ) (nodes : ℕ → NodeHeader) :
    (initObjectPool sizeofType nPoolLen pBuf nodes).Valid ∅ := by
  obtain ⟨m, rfl⟩ : ∃ m, nPoolLen = m + 1 := ⟨nPoolLen - 1, by omega⟩
  obtain ⟨-, hnodes⟩ := foldl_linkSlot (slotAt_injective pBuf)
    (fun n => (⟨none, n, 0, true⟩ : NodeHeader))
    (fun pTemp1 pTemp2 => { pTemp1 with pNext := some pTemp2 }) nodes m
  rw [slotAt_zero] at hnodes
  let p := initObjectPool sizeofType (m + 1) pBuf nodes
  have hslot {i : ℕ} (hi : i ≤ m) :
      p.nodes (p.slot i) = ⟨if i < m then some (p.slot (i + 1)) else none, i, 0, true⟩ := by
    refine (hnodes i hi).trans ?_
    split_ifs <;> rfl
  have hlinked : Linked p.next (some (p.slot 0)) ((List.range (m + 1)).map p.slot) :=
    linked_range (fun i hi => by rw [next, hslot hi.le, if_pos hi])
      (by rw [next, hslot le_rfl, if_neg (lt_irrefl m)])
  rw [show p.slot 0 = pBuf from slotAt_zero pBuf] at hlinked
  refine ⟨⟨_, hlinked, fun a => ?_⟩, ?_, ?_, nofun⟩
  · simp only [List.mem_map, List.mem_range, IsSlot, Set.mem_empty_iff_false, not_false_eq_true,
      and_true]
    exact exists_congr fun n => and_congr_right fun _ => eq_comm
  · rintro _ ⟨n, hn, rfl⟩
    exact congrArg NodeHeader.bPool (hslot (Nat.le_of_lt_succ hn))
  · rintro _ ⟨n, hn, rfl⟩ -
    exact congrArg NodeHeader.nRef (hslot (Nat.le_of_lt_succ hn))

/-! ## Handing out and taking back -/

/-- **An object that is handed out was not live**, and the pool stays valid, if what `operator
new[]` returns when the list is empty is neither in the buffer nor in use. -/
theorem Valid.allocObject (h : p.Valid live) (nSize : ℕ) (new : ℕ → ℕ)
    (hnew : p.pHeader = none → ¬ p.IsSlot (new (nSize + sizeofNodeHeader)) ∧
      new (nSize + sizeofNodeHeader) ∉ live) :
    ∃ a ∉ live, (p.allocObject nSize new).2 = a + sizeofNodeHeader ∧
      (p.allocObject nSize new).1.Valid (insert a live) := by
  obtain ⟨l, hlinked, hl⟩ := h.free
  have hlive {a : ℕ} (b : ℕ) (hba : b ≠ a) : b ∈ insert a live ↔ b ∈ live := by simp [hba]
  rcases hheader : p.pHeader with _ | a
  · -- the list is empty, and stays so
    obtain ⟨hslot, hout⟩ := hnew hheader
    rw [ObjectPool.allocObject, hheader]
    generalize new (nSize + sizeofNodeHeader) = a at hslot hout
    refine ⟨a, hout, rfl, h.of_agree (a := a) rfl (fun b hba => Function.update_of_ne hba _ _) hlive
      ?_ (fun hin => absurd hin hslot) (fun hin => absurd hin hslot) fun _ => ?_⟩
    · have hnil : Linked p.next p.pHeader [] := hheader
      obtain rfl := hlinked.unique hnil
      refine ⟨[], rfl, fun b => ?_⟩
      rw [hl b]
      refine and_congr_right fun hb => ?_
      rw [hlive b]
      rintro rfl
      exact hslot hb
    · simp
  · rw [hheader] at hlinked
    obtain ⟨l', rfl, hrest⟩ := hlinked.pop
    obtain ⟨hslot, hout⟩ := (hl a).mp List.mem_cons_self
    have hnotin : a ∉ l' := (List.nodup_cons.mp hlinked.nodup).1
    rw [ObjectPool.allocObject, hheader]
    refine ⟨a, hout, rfl, h.of_agree (a := a) rfl (fun b hba => Function.update_of_ne hba _ _) hlive
      ⟨l', hrest.congr fun b hb => ?_, fun b => ?_⟩ (fun _ => ?_) (fun _ hin => ?_) fun _ => ?_⟩
    · have hba : b ≠ a := by
        rintro rfl
        exact hnotin hb
      exact congrArg NodeHeader.pNext (Function.update_of_ne hba _ _)
    · by_cases hba : b = a
      · subst hba
        simp [hnotin]
      · rw [hlive b hba, ← hl b]
        simp [hba]
    · simpa using h.pooled a hslot
    · exact absurd (Set.mem_insert a live) hin
    · simp [hslot]

/-- **An object that is deleted goes back where it came from.** -/
theorem Valid.freeObjectMemory (h : p.Valid live) {a : ℕ} (ha : a ∈ live) :
    (p.freeObjectMemory (a + sizeofNodeHeader)).1.Valid (live \ {a}) ∧
      (p.freeObjectMemory (a + sizeofNodeHeader)).2 =
        (if (p.nodes a).bPool then none else some a, 0) := by
  obtain ⟨l, hlinked, hl⟩ := h.free
  obtain ⟨hnRef, hpool⟩ := h.used a ha
  have hlive (b : ℕ) (hba : b ≠ a) : b ∈ live \ {a} ↔ b ∈ live := by simp [hba]
  have hnotin : a ∉ l := fun hin => ((hl a).mp hin).2 ha
  have hzero : (1 : UInt8) - 1 = 0 := rfl
  have hout : a ∉ live \ {a} := by simp
  rcases hpooled : (p.nodes a).bPool with _ | _
  · have hslot : ¬ p.IsSlot a := fun hslot => by simp [h.pooled a hslot] at hpooled
    simp only [ObjectPool.freeObjectMemory, Nat.add_sub_cancel, hpooled, hnRef, hzero, ne_eq,
      not_true_eq_false, if_false, Bool.false_eq_true, and_true]
    refine h.of_agree (a := a) rfl (fun b hba => Function.update_of_ne hba _ _) hlive
      ⟨l, hlinked.congr fun b hb => ?_, fun b => ?_⟩ (fun hin => absurd hin hslot)
      (fun hin => absurd hin hslot) fun hin => absurd hin hout
    · have hba : b ≠ a := by
        rintro rfl
        exact hnotin hb
      exact congrArg NodeHeader.pNext (Function.update_of_ne hba _ _)
    · rw [hl b]
      refine and_congr_right fun hb => ?_
      rw [hlive b]
      rintro rfl
      exact hslot hb
  · have hslot := hpool hpooled
    simp only [ObjectPool.freeObjectMemory, Nat.add_sub_cancel, hpooled, hnRef, hzero, ne_eq,
      not_true_eq_false, if_false, if_true, and_true]
    refine h.of_agree (a := a) rfl (fun b hba => ?_) hlive
      ⟨a :: l, hlinked.push hnotin ?_ fun b hba => ?_, fun b => ?_⟩ (fun _ => ?_) (fun _ _ => ?_)
      fun hin => absurd hin hout
    · simp [Function.update_of_ne hba]
    · simp [next]
    · simp [next, Function.update_of_ne hba]
    · by_cases hba : b = a
      · subst hba
        simp [hslot]
      · rw [hlive b hba, ← hl b]
        simp [hba]
    · simp
    · simp

end ObjectPool
end EasyTcpServer
