import EasyTcpServer.Lib.Area
import EasyTcpServer.Lib.Machine
import EasyTcpServer.Pool.MemoryPool
import EasyTcpServer.Pool.ObjectPool

/-!
# Runs of an object pool

The machine below is the pool of a class derived from `ObjectPoolBase` under `new` and `delete`
of its objects in any order.  The global `operator new[]` returns fresh memory; what is in use of
it is recorded in `areas`.  `delete` is called for objects that are live.

`live` records the objects with what the program itself tells by a flag in the header: whether
the pool was exhausted when the object was made.

The size of the buffer and the places of the slots are products in `size_t`.  `sizeof(Type)` with
a header does not wrap around.

* `objectPoolLaw`: the law of the pool, in every run of a pool whose buffer fits a `size_t`.
* `objectPoolLaw_of_size_fails`: a pool whose buffer does not.
-/

namespace EasyTcpServer

namespace ObjectPool

variable {sizeofType nPoolLen : ℕ}

/-- The size of the buffer, as `initObjectPool` computes it. -/
def bufSize (sizeofType nPoolLen : ℕ) : ℕ := mulSizeT nPoolLen (sizeofType + sizeofNodeHeader)

/-- The address of the header of a slot, as `initObjectPool` computes it. -/
def slotAtSizeT (sizeofType pBuf n : ℕ) : ℕ := pBuf + mulSizeT n (sizeofType + sizeofNodeHeader)

/-- `initObjectPool` with the sizes computed in `size_t`. -/
def initObjectPoolSizeT (sizeofType nPoolLen pBuf : ℕ) (nodes : ℕ → NodeHeader) :
    ObjectPool sizeofType nPoolLen :=
  let nodes := Function.update nodes pBuf ⟨none, 0, 0, true⟩
  ⟨some pBuf, pBuf, ((List.range' 1 (nPoolLen - 1)).foldl
    (linkSlot (slotAtSizeT sizeofType pBuf) (fun n => ⟨none, n, 0, true⟩)
      fun pTemp1 pTemp2 => { pTemp1 with pNext := some pTemp2 }) (nodes, pBuf)).1⟩

theorem bufSize_eq (hfits : nPoolLen * (sizeofType + sizeofNodeHeader) < 2 ^ 64) :
    bufSize sizeofType nPoolLen = nPoolLen * (sizeofType + sizeofNodeHeader) :=
  Nat.mod_eq_of_lt hfits

/-- Nothing wraps around if the buffer fits a `size_t`. -/
theorem initObjectPoolSizeT_eq (hfits : nPoolLen * (sizeofType + sizeofNodeHeader) < 2 ^ 64)
    (pBuf : ℕ) (nodes : ℕ → NodeHeader) :
    initObjectPoolSizeT sizeofType nPoolLen pBuf nodes =
      initObjectPool sizeofType nPoolLen pBuf nodes := by
  unfold initObjectPoolSizeT initObjectPool
  dsimp only
  congr 2
  refine List.foldl_ext _ _ _ fun r n hn => ?_
  have hlt : n < nPoolLen := by
    obtain ⟨i, hi, rfl⟩ := List.mem_range'.mp hn
    omega
  have hle := Nat.mul_le_mul_right (sizeofType + sizeofNodeHeader) hlt.le
  have hslot : slotAtSizeT sizeofType pBuf n = slotAt sizeofType pBuf n := by
    rw [slotAtSizeT, mulSizeT, Nat.mod_eq_of_lt (hle.trans_lt hfits), slotAt]
  simp only [initNode, linkSlot, hslot]

variable {p : ObjectPool sizeofType nPoolLen}

@[simp] theorem pBuf_allocObject (nSize : ℕ) (new : ℕ → ℕ) :
    (p.allocObject nSize new).1.pBuf = p.pBuf := by
  unfold allocObject
  split <;> rfl

@[simp] theorem pBuf_freeObjectMemory (pMem : ℕ) :
    (p.freeObjectMemory pMem).1.pBuf = p.pBuf := by
  unfold freeObjectMemory
  dsimp only
  split_ifs <;> rfl

/-- The list is empty, and an object is taken from the global `operator new[]`. -/
theorem allocObject_of_none (h : p.pHeader = none) (nSize : ℕ) (new : ℕ → ℕ) :
    (p.allocObject nSize new).2 = new (nSize + sizeofNodeHeader) + sizeofNodeHeader := by
  rw [allocObject, h]

/-- An object is taken from the list. -/
theorem Valid.isSlot_allocObject {live : Set ℕ} (h : p.Valid live) (hsome : p.pHeader ≠ none)
    (nSize : ℕ) (new : ℕ → ℕ) :
    ∃ a, p.IsSlot a ∧ (p.allocObject nSize new).2 = a + sizeofNodeHeader := by
  obtain ⟨a, ha⟩ := Option.ne_none_iff_exists'.mp hsome
  obtain ⟨l, hlinked, hl⟩ := h.free
  rw [ha] at hlinked
  obtain ⟨l', rfl, -⟩ := hlinked.pop
  refine ⟨a, ((hl a).mp List.mem_cons_self).1, ?_⟩
  rw [ObjectPool.allocObject, ha]

end ObjectPool

namespace ObjectPoolRun

/-- An object that is live. -/
structure Object where
  /-- The address that was handed out. -/
  pMem : ℕ
  /-- The list was empty when the object was made. -/
  exhausted : Bool
  deriving DecidableEq, Repr

/-- The address of the object's header. -/
def Object.block (o : Object) : ℕ := o.pMem - sizeofNodeHeader

structure State (sizeofType nPoolLen : ℕ) where
  pool : ObjectPool sizeofType nPoolLen
  /-- What the global `operator new[]` has returned and was not deleted. -/
  areas : List Area
  /-- The live objects, the newest first. -/
  live : List Object

inductive Act where
  /-- `operator new(sizeof(Type))`, where a call of the global one returns `p`. -/
  | new (p : ℕ)
  /-- `operator delete` of an object. -/
  | delete (o : Object)
  deriving DecidableEq, Repr

variable {sizeofType nPoolLen : ℕ}

/-- The block of an object that has a block of its own. -/
def blockArea (sizeofType a : ℕ) : Area := ⟨a, sizeofType + sizeofNodeHeader⟩

def step (s : State sizeofType nPoolLen) : Act → Option (State sizeofType nPoolLen)
  | .new p =>
    let exhausted := s.pool.pHeader.isNone
    if exhausted = true → Area.Fresh s.areas (blockArea sizeofType p) then
      let r := s.pool.allocObject sizeofType fun _ => p
      some ⟨r.1, if exhausted then blockArea sizeofType p :: s.areas else s.areas,
        ⟨r.2, exhausted⟩ :: s.live⟩
    else none
  | .delete o =>
    if o ∈ s.live then
      let r := s.pool.freeObjectMemory o.pMem
      some ⟨r.1, r.2.1.elim s.areas (Area.release s.areas), s.live.erase o⟩
    else none

end ObjectPoolRun

open ObjectPoolRun in
/-- The pool of a class, with its buffer at `pBuf`. -/
def objectPoolRun (sizeofType nPoolLen pBuf : ℕ) (nodes : ℕ → NodeHeader) :
    Machine (State sizeofType nPoolLen) Act where
  init := ⟨.initObjectPoolSizeT sizeofType nPoolLen pBuf nodes,
    [⟨pBuf, ObjectPool.bufSize sizeofType nPoolLen⟩], []⟩
  step := step

namespace ObjectPoolRun

variable {sizeofType nPoolLen : ℕ} {s t : State sizeofType nPoolLen} {o : Object} {p : ℕ}

/-! ## The law -/

/-- The headers of the live objects. -/
def State.blocks (s : State sizeofType nPoolLen) : Set ℕ := {a | ∃ o ∈ s.live, o.block = a}

/-- The buffer of the pool. -/
def State.buffer (s : State sizeofType nPoolLen) : Area :=
  ⟨s.pool.pBuf, ObjectPool.bufSize sizeofType nPoolLen⟩

/-- The memory of an object. -/
def objectArea (sizeofType pMem : ℕ) : Area := ⟨pMem, sizeofType⟩

/-- The memory of a header. -/
def headerArea (a : ℕ) : Area := ⟨a, sizeofNodeHeader⟩

/-- **The law of an object pool.** -/
structure Law (s : State sizeofType nPoolLen) : Prop where
  /-- The list runs through the slots whose objects are not live. -/
  chain : ∃ l, Linked s.pool.next s.pool.pHeader l ∧ l.Nodup ∧
    (∀ a ∈ l, (s.pool.nodes a).nRef = 0) ∧ (∀ a, a ∈ l ↔ s.pool.IsSlot a ∧ a ∉ s.blocks) ∧
    l.length + (s.live.filter fun o => !o.exhausted).length = nPoolLen
  distinct : (s.live.map Object.pMem).Nodup
  objects : ∀ o ∈ s.live, ∀ o' ∈ s.live, o ≠ o' →
    (objectArea sizeofType o.pMem).Apart (objectArea sizeofType o'.pMem)
  headers : ∀ o ∈ s.live, ∀ a, s.pool.IsSlot a ∨ a ∈ s.blocks →
    (objectArea sizeofType o.pMem).Apart (headerArea a)
  exhausted : ∀ o ∈ s.live, (o.exhausted = true ↔ ¬ s.pool.IsSlot o.block)
  /-- The memory in use is the buffer and the blocks of the live objects without a slot. -/
  memory : ∀ r, r ∈ s.areas ↔
    r = s.buffer ∨ ∃ o ∈ s.live, o.exhausted = true ∧ r = blockArea sizeofType o.block
  asserts : s.pool.AllocAssert ∧ ∀ o ∈ s.live, s.pool.FreeAssert o.pMem

/-- What a call does: `new` returns an object that was not live, and `delete` gives the block to
the global `operator delete` if and only if it came from the global `operator new[]`. -/
def StepLaw (s t : State sizeofType nPoolLen) : Act → Prop
  | .new _ => ∃ o, o.block ∉ s.blocks ∧ (o.exhausted = true ↔ s.pool.pHeader = none) ∧
      t.live = o :: s.live
  | .delete o => o ∈ s.live ∧
      (s.pool.freeObjectMemory o.pMem).2 = (if o.exhausted then some o.block else none, 0) ∧
      t.live = s.live.erase o

/-! ## The invariant -/

structure Inv (s : State sizeofType nPoolLen) : Prop where
  valid : s.pool.Valid s.blocks
  address : ∀ o ∈ s.live, o.pMem = o.block + sizeofNodeHeader
  nodup : (s.live.map Object.block).Nodup
  exhausted : ∀ o ∈ s.live, (o.exhausted = true ↔ ¬ s.pool.IsSlot o.block)
  memory : ∀ r, r ∈ s.areas ↔
    r = s.buffer ∨ ∃ o ∈ s.live, o.exhausted = true ∧ r = blockArea sizeofType o.block
  apart : s.areas.Pairwise Area.Apart

theorem State.mem_blocks {a : ℕ} : a ∈ s.blocks ↔ ∃ o ∈ s.live, o.block = a := Iff.rfl

theorem step_new (h : step s (.new p) = some t) :
    (s.pool.pHeader = none → Area.Fresh s.areas (blockArea sizeofType p)) ∧
      t = ⟨(s.pool.allocObject sizeofType fun _ => p).1,
        if s.pool.pHeader.isNone then blockArea sizeofType p :: s.areas else s.areas,
        ⟨(s.pool.allocObject sizeofType fun _ => p).2, s.pool.pHeader.isNone⟩ :: s.live⟩ := by
  have h := Machine.guarded_eq_some.mp h
  exact ⟨fun hnone => h.1 (Option.isNone_iff_eq_none.mpr hnone), h.2⟩

theorem step_delete (h : step s (.delete o) = some t) :
    o ∈ s.live ∧ t = ⟨(s.pool.freeObjectMemory o.pMem).1,
      (s.pool.freeObjectMemory o.pMem).2.1.elim s.areas (Area.release s.areas),
      s.live.erase o⟩ :=
  Machine.guarded_eq_some.mp h

theorem isSlot_congr (hbuf : t.pool.pBuf = s.pool.pBuf) (a : ℕ) :
    t.pool.IsSlot a ↔ s.pool.IsSlot a := by
  simp only [ObjectPool.IsSlot, ObjectPool.slot, hbuf]

variable (hlen : 1 ≤ nPoolLen) (hfits : nPoolLen * (sizeofType + sizeofNodeHeader) < 2 ^ 64)

section Fits
include hfits

/-- A slot lies in the buffer. -/
theorem within_buffer {a : ℕ} (ha : s.pool.IsSlot a) :
    (blockArea sizeofType a).Within s.buffer := by
  obtain ⟨n, hn, rfl⟩ := ha
  rw [State.buffer, ObjectPool.bufSize_eq hfits, Nat.mul_comm]
  exact Area.slot_within s.pool.pBuf (sizeofType + sizeofNodeHeader) hn

/-- Fresh memory is no slot, and no object has its header there. -/
theorem Inv.of_fresh (h : Inv s) (hfresh : Area.Fresh s.areas (blockArea sizeofType p)) :
    ¬ s.pool.IsSlot p ∧ p ∉ s.blocks := by
  have hpos (a : ℕ) : 0 < (blockArea sizeofType a).size := Nat.add_pos_right _ (by decide)
  have hbuffer : s.buffer ∈ s.areas := (h.memory _).mpr (.inl rfl)
  have hslot (a : ℕ) (ha : s.pool.IsSlot a) : p ≠ a := by
    have hapart := (hfresh.2.2 _ hbuffer).of_within (.refl _) (within_buffer hfits ha)
    exact hapart.start_ne (hpos p) (hpos a)
  refine ⟨fun hp => hslot p hp rfl, ?_⟩
  rintro ⟨o, ho, rfl⟩
  by_cases hexhausted : o.exhausted = true
  · have hmem : blockArea sizeofType o.block ∈ s.areas :=
      (h.memory _).mpr (.inr ⟨o, ho, hexhausted, rfl⟩)
    exact (hfresh.2.2 _ hmem).start_ne (hpos _) (hpos _) rfl
  · exact hslot _ (not_not.mp (mt (h.exhausted o ho).mpr hexhausted)) rfl

/-- Where a new object lies: in a slot if the list is not empty, and else in the fresh memory. -/
theorem Inv.place_new (h : Inv s)
    (hfresh : s.pool.pHeader = none → Area.Fresh s.areas (blockArea sizeofType p)) {a : ℕ}
    (ha : (s.pool.allocObject sizeofType fun _ => p).2 = a + sizeofNodeHeader) :
    s.pool.pHeader = none ∧ a = p ∧ ¬ s.pool.IsSlot a ∨
      s.pool.pHeader ≠ none ∧ s.pool.IsSlot a := by
  by_cases hnone : s.pool.pHeader = none
  · have hplace := ObjectPool.allocObject_of_none hnone sizeofType fun _ => p
    obtain rfl : a = p := Nat.add_right_cancel (ha.symm.trans hplace)
    exact .inl ⟨hnone, rfl, (h.of_fresh hfits (hfresh hnone)).1⟩
  · obtain ⟨b, hb, hplace⟩ := h.valid.isSlot_allocObject hnone sizeofType fun _ => p
    obtain rfl : a = b := Nat.add_right_cancel (ha.symm.trans hplace)
    exact .inr ⟨hnone, hb⟩

/-- **An object is made.** -/
theorem Inv.new (h : Inv s) (hstep : step s (.new p) = some t) :
    Inv t ∧ StepLaw s t (.new p) := by
  obtain ⟨hfresh, ht⟩ := step_new hstep
  obtain ⟨a, hout, haddr, hvalid⟩ := h.valid.allocObject sizeofType (fun _ => p)
    fun hnone => h.of_fresh hfits (hfresh hnone)
  have hplace := h.place_new hfits hfresh haddr
  rw [haddr] at ht
  generalize ho : (⟨a + sizeofNodeHeader, s.pool.pHeader.isNone⟩ : Object) = o at ht
  have hblock : o.block = a := by rw [← ho, Object.block, Nat.add_sub_cancel]
  have hexhausted : o.exhausted = true ↔ s.pool.pHeader = none := by
    rw [← ho, Option.isNone_iff_eq_none]
  have hlive : t.live = o :: s.live := by rw [ht]
  have hbuf : t.pool.pBuf = s.pool.pBuf := by rw [ht, ObjectPool.pBuf_allocObject]
  have hareas : t.areas =
      if s.pool.pHeader = none then blockArea sizeofType p :: s.areas else s.areas := by
    rw [ht]
    simp only [Option.isNone_iff_eq_none]
  have hblocks : t.blocks = insert a s.blocks := by
    ext b
    rw [Set.mem_insert_iff, State.mem_blocks, State.mem_blocks, hlive, eq_comm (a := b), ← hblock]
    simp only [List.mem_cons, exists_eq_or_imp]
  refine ⟨⟨?_, ?_, ?_, ?_, ?_, ?_⟩, o, by rwa [hblock], hexhausted, hlive⟩
  · rw [hblocks, ht]
    exact hvalid
  · rw [hlive]
    refine List.forall_mem_cons.mpr ⟨?_, h.address⟩
    rw [hblock, ← ho]
  · rw [hlive, List.map_cons, List.nodup_cons, hblock]
    refine ⟨fun hin => hout ?_, h.nodup⟩
    obtain ⟨o', ho', rfl⟩ := List.mem_map.mp hin
    exact ⟨o', ho', rfl⟩
  · simp only [hlive, isSlot_congr hbuf]
    refine List.forall_mem_cons.mpr ⟨?_, h.exhausted⟩
    rw [hexhausted, hblock]
    obtain ⟨hnone, -, hslot⟩ | ⟨hsome, hslot⟩ := hplace
    · exact iff_of_true hnone hslot
    · exact iff_of_false hsome (not_not.mpr hslot)
  · have hbuffer : t.buffer = s.buffer := by rw [State.buffer, hbuf, State.buffer]
    intro r
    rw [hbuffer, hlive]
    simp only [List.mem_cons, exists_eq_or_imp, hexhausted, hblock]
    rw [hareas]
    obtain ⟨hnone, rfl, -⟩ | ⟨hsome, -⟩ := hplace
    · rw [if_pos hnone, List.mem_cons, h.memory r]
      simp only [hnone, true_and, or_left_comm]
    · rw [if_neg hsome, h.memory r]
      simp only [hsome, false_and, false_or]
  · rw [hareas]
    split_ifs with hnone
    · exact Area.pairwise_cons h.apart (hfresh hnone)
    · exact h.apart

end Fits

/-- The other live objects. -/
theorem Inv.mem_erase (h : Inv s) {o' : Object} (ho : o ∈ s.live) :
    o' ∈ s.live.erase o ↔ o' ∈ s.live ∧ o'.block ≠ o.block := by
  rw [(h.nodup.of_map _).mem_erase_iff, and_comm]
  refine and_congr_right fun ho' => not_congr ⟨congrArg _, fun heq => ?_⟩
  exact List.inj_on_of_nodup_map h.nodup ho' ho heq

/-- The flag in the header tells where the block came from. -/
theorem Inv.bPool_eq (h : Inv s) (ho : o ∈ s.live) :
    (s.pool.nodes o.block).bPool = !o.exhausted := by
  cases hex : o.exhausted with
  | true =>
    have hslot := (h.exhausted o ho).mp hex
    simpa using mt (h.valid.used _ ⟨o, ho, rfl⟩).2 hslot
  | false =>
    refine h.valid.pooled _ (not_not.mp (mt (h.exhausted o ho).mpr ?_))
    simp [hex]

/-- A block from `operator new[]` does not start where the buffer of the pool does. -/
theorem Inv.start_buffer_ne (hlen : 1 ≤ nPoolLen) (h : Inv s) (ho : o ∈ s.live)
    (hex : o.exhausted = true) : s.buffer.start ≠ o.block := by
  intro heq
  refine (h.exhausted o ho).mp hex ⟨0, hlen, ?_⟩
  rw [← heq]
  exact (ObjectPool.slotAt_zero _).symm

include hlen in
/-- The memory in use is that of the other objects when `o` is deleted. -/
theorem Inv.memory_erase (h : Inv s) (ho : o ∈ s.live) (r : Area) :
    r ∈ (if o.exhausted then Area.release s.areas o.block else s.areas) ↔
      r = s.buffer ∨ ∃ o' ∈ s.live.erase o, o'.exhausted = true ∧
        r = blockArea sizeofType o'.block := by
  simp only [h.mem_erase ho]
  split_ifs with hex
  · -- the block is released, and nothing else starts where it does
    rw [Area.mem_release, h.memory r]
    constructor
    · rintro ⟨rfl | ⟨o', ho', hex', rfl⟩, hstart⟩
      · exact .inl rfl
      · exact .inr ⟨o', ⟨ho', hstart⟩, hex', rfl⟩
    · rintro (rfl | ⟨o', ⟨ho', hstart⟩, hex', rfl⟩)
      · exact ⟨.inl rfl, h.start_buffer_ne hlen ho hex⟩
      · exact ⟨.inr ⟨o', ho', hex', rfl⟩, hstart⟩
  · rw [h.memory r]
    refine or_congr_right (exists_congr fun o' => ?_)
    constructor
    · rintro ⟨ho', hex', rfl⟩
      refine ⟨⟨ho', fun heq => hex ?_⟩, hex', rfl⟩
      rwa [← List.inj_on_of_nodup_map h.nodup ho' ho heq]
    · rintro ⟨⟨ho', -⟩, hex', rfl⟩
      exact ⟨ho', hex', rfl⟩

include hlen in
/-- **An object is deleted.** -/
theorem Inv.delete (h : Inv s) (hstep : step s (.delete o) = some t) :
    Inv t ∧ StepLaw s t (.delete o) := by
  obtain ⟨ho, ht⟩ := step_delete hstep
  obtain ⟨hvalid, hresult⟩ := h.valid.freeObjectMemory (a := o.block) ⟨o, ho, rfl⟩
  rw [← h.address o ho] at hvalid hresult
  have hfreed : (s.pool.freeObjectMemory o.pMem).2 =
      (if o.exhausted then some o.block else none, 0) := by
    rw [hresult, h.bPool_eq ho]
    cases o.exhausted <;> rfl
  have hlive : t.live = s.live.erase o := by rw [ht]
  have hbuf : t.pool.pBuf = s.pool.pBuf := by rw [ht, ObjectPool.pBuf_freeObjectMemory]
  have hblocks : t.blocks = s.blocks \ {o.block} := by
    ext b
    simp only [State.mem_blocks, hlive, h.mem_erase ho, Set.mem_sdiff, Set.mem_singleton_iff]
    constructor
    · rintro ⟨o', ⟨ho', hne⟩, rfl⟩
      exact ⟨⟨o', ho', rfl⟩, hne⟩
    · rintro ⟨⟨o', ho', rfl⟩, hne⟩
      exact ⟨o', ⟨ho', hne⟩, rfl⟩
  have hareas : t.areas = if o.exhausted then Area.release s.areas o.block else s.areas := by
    rw [ht]
    dsimp only
    rw [hfreed]
    cases o.exhausted <;> rfl
  have hsub (o' : Object) (ho' : o' ∈ t.live) : o' ∈ s.live :=
    ((h.mem_erase ho).mp (hlive ▸ ho')).1
  refine ⟨⟨?_, fun o' ho' => h.address o' (hsub o' ho'), ?_, fun o' ho' => ?_, fun r => ?_, ?_⟩,
    ho, hfreed, hlive⟩
  · rw [hblocks, ht]
    exact hvalid
  · rw [hlive]
    exact (List.erase_sublist.map _).nodup h.nodup
  · rw [isSlot_congr hbuf]
    exact h.exhausted o' (hsub o' ho')
  · have hbuffer : t.buffer = s.buffer := by rw [State.buffer, hbuf, State.buffer]
    rw [hareas, hbuffer, hlive]
    exact h.memory_erase hlen ho r
  · rw [hareas]
    split_ifs
    · exact Area.pairwise_release h.apart _
    · exact h.apart

include hlen hfits in
theorem Inv.next (h : Inv s) {i : Act} (hstep : step s i = some t) : Inv t ∧ StepLaw s t i := by
  cases i with
  | new p => exact h.new hfits hstep
  | delete o => exact h.delete hlen hstep

/-! ## The law follows -/

theorem headerArea_within (a : ℕ) : (headerArea a).Within (blockArea sizeofType a) :=
  ⟨le_rfl, Nat.add_le_add_left (Nat.le_add_left _ _) a⟩

theorem objectArea_within (a : ℕ) :
    (objectArea sizeofType (a + sizeofNodeHeader)).Within (blockArea sizeofType a) := by
  refine ⟨Nat.le_add_right _ _, ?_⟩
  simp only [objectArea, blockArea]
  omega

section Fits
include hfits

omit hfits in
/-- A block is a slot, or an area that is in use. -/
theorem Inv.isSlot_or_mem (h : Inv s) {a : ℕ} (ha : s.pool.IsSlot a ∨ a ∈ s.blocks) :
    s.pool.IsSlot a ∨ blockArea sizeofType a ∈ s.areas ∧ ¬ s.pool.IsSlot a := by
  by_cases hslot : s.pool.IsSlot a
  · exact .inl hslot
  · obtain ⟨o, ho, rfl⟩ := ha.resolve_left hslot
    exact .inr ⟨(h.memory _).mpr (.inr ⟨o, ho, (h.exhausted o ho).mpr hslot, rfl⟩), hslot⟩

/-- A slot is apart from an area in use that is none. -/
theorem Inv.slot_apart (h : Inv s) {a b : ℕ} (ha : s.pool.IsSlot a)
    (hb : blockArea sizeofType b ∈ s.areas) (hnot : ¬ s.pool.IsSlot b) :
    (blockArea sizeofType a).Apart (blockArea sizeofType b) := by
  have hne : s.buffer ≠ blockArea sizeofType b := by
    intro heq
    obtain ⟨n, hn, -⟩ := ha
    refine hnot ⟨0, Nat.zero_lt_of_lt hn, ?_⟩
    exact (congrArg Area.start heq).symm.trans (ObjectPool.slotAt_zero _).symm
  have hbuffer : s.buffer ∈ s.areas := (h.memory _).mpr (.inl rfl)
  exact (Area.apart_of_mem h.apart hbuffer hb hne).of_within (within_buffer hfits ha) (.refl _)

/-- **Blocks do not overlap**, live or free. -/
theorem Inv.block_apart (h : Inv s) {a b : ℕ} (ha : s.pool.IsSlot a ∨ a ∈ s.blocks)
    (hb : s.pool.IsSlot b ∨ b ∈ s.blocks) (hne : a ≠ b) :
    (blockArea sizeofType a).Apart (blockArea sizeofType b) := by
  obtain hslot | ⟨hmem, hnot⟩ := h.isSlot_or_mem ha
  · obtain hslot' | ⟨hmem', hnot'⟩ := h.isSlot_or_mem hb
    · obtain ⟨m, -, rfl⟩ := hslot
      obtain ⟨n, -, rfl⟩ := hslot'
      refine Area.slot_apart s.pool.pBuf (sizeofType + sizeofNodeHeader) ?_
      rintro rfl
      exact hne rfl
    · exact h.slot_apart hfits hslot hmem' hnot'
  · obtain hslot' | ⟨hmem', -⟩ := h.isSlot_or_mem hb
    · exact (h.slot_apart hfits hslot' hmem hnot).symm
    · exact Area.apart_of_mem h.apart hmem hmem' fun heq => hne (congrArg Area.start heq)

omit hfits in
/-- **The slots are the free ones and those of the live objects.** -/
theorem Inv.length_add (h : Inv s) {l : List ℕ} (hl : l.Nodup)
    (hmem : ∀ a, a ∈ l ↔ s.pool.IsSlot a ∧ a ∉ s.blocks) :
    l.length + (s.live.filter fun o => !o.exhausted).length = nPoolLen := by
  have hpooled (a : ℕ) : a ∈ (s.live.filter fun o => !o.exhausted).map Object.block ↔
      s.pool.IsSlot a ∧ a ∈ s.blocks := by
    simp only [List.mem_map, List.mem_filter, State.mem_blocks]
    constructor
    · rintro ⟨o, ⟨ho, hex⟩, rfl⟩
      refine ⟨not_not.mp (mt (h.exhausted o ho).mpr ?_), o, ho, rfl⟩
      simpa using hex
    · rintro ⟨hslot, o, ho, rfl⟩
      refine ⟨o, ⟨ho, ?_⟩, rfl⟩
      simpa using mt (h.exhausted o ho).mp (not_not.mpr hslot)
  have hnodup : (l ++ (s.live.filter fun o => !o.exhausted).map Object.block).Nodup := by
    refine List.nodup_append'.mpr ⟨hl, (List.filter_sublist.map _).nodup h.nodup, ?_⟩
    intro a ha ha'
    exact ((hmem a).mp ha).2 ((hpooled a).mp ha').2
  have hperm : (l ++ (s.live.filter fun o => !o.exhausted).map Object.block).Perm
      ((List.range nPoolLen).map s.pool.slot) := by
    refine (List.perm_ext_iff_of_nodup hnodup
      (List.nodup_range.map (ObjectPool.slotAt_injective _))).mpr fun a => ?_
    have hrange : s.pool.IsSlot a ↔ a ∈ (List.range nPoolLen).map s.pool.slot := by
      simp only [List.mem_map, List.mem_range, ObjectPool.IsSlot, eq_comm]
    rw [List.mem_append, hmem a, hpooled a, ← and_or_left, or_comm]
    exact (and_iff_left (em _)).trans hrange
  simpa using hperm.length_eq

theorem Inv.law (h : Inv s) : Law s := by
  obtain ⟨l, hlinked, hl⟩ := h.valid.free
  have hplace {o : Object} (ho : o ∈ s.live) : s.pool.IsSlot o.block ∨ o.block ∈ s.blocks :=
    .inr ⟨o, ho, rfl⟩
  have hobject {o : Object} (ho : o ∈ s.live) :
      (objectArea sizeofType o.pMem).Within (blockArea sizeofType o.block) := by
    rw [h.address o ho]
    exact objectArea_within o.block
  refine ⟨⟨l, hlinked, hlinked.nodup, fun a ha => ?_, hl, h.length_add hlinked.nodup hl⟩, ?_,
    fun o ho o' ho' hne => ?_, fun o ho a ha => ?_, h.exhausted, h.memory, h.valid.allocAssert,
    fun o ho => ?_⟩
  · obtain ⟨hslot, hfree⟩ := (hl a).mp ha
    exact h.valid.unused a hslot hfree
  · refine List.Nodup.of_map (fun a => a - sizeofNodeHeader) ?_
    rw [List.map_map]
    exact h.nodup
  · have hblocks : o.block ≠ o'.block := fun heq =>
      hne (List.inj_on_of_nodup_map h.nodup ho ho' heq)
    have hapart := h.block_apart hfits (hplace ho) (hplace ho') hblocks
    exact hapart.of_within (hobject ho) (hobject ho')
  · by_cases hblock : o.block = a
    · -- the object's own header
      rw [← hblock, h.address o ho]
      exact .inr le_rfl
    · have hapart := h.block_apart hfits (hplace ho) ha hblock
      exact hapart.of_within (hobject ho) (headerArea_within a)
  · rw [h.address o ho]
    exact h.valid.freeAssert ⟨o, ho, rfl⟩

end Fits

/-! ## Runs -/

variable {pBuf : ℕ} {nodes : ℕ → NodeHeader}

include hlen hfits in
theorem inv_init : Inv (objectPoolRun sizeofType nPoolLen pBuf nodes).init := by
  refine ⟨?_, by simp [objectPoolRun], .nil, by simp [objectPoolRun], fun r => ?_, ?_⟩
  · have hblocks : (objectPoolRun sizeofType nPoolLen pBuf nodes).init.blocks = ∅ := by
      simp [objectPoolRun, State.blocks]
    rw [hblocks]
    show (ObjectPool.initObjectPoolSizeT sizeofType nPoolLen pBuf nodes).Valid ∅
    rw [ObjectPool.initObjectPoolSizeT_eq hfits]
    exact ObjectPool.valid_initObjectPool hlen pBuf nodes
  · simp [objectPoolRun, State.buffer, ObjectPool.initObjectPoolSizeT]
  · exact List.pairwise_singleton _ _

/-- **The law of an object pool holds in every run**, if its buffer fits a `size_t`. -/
theorem objectPoolLaw (hlen : 1 ≤ nPoolLen)
    (hfits : nPoolLen * (sizeofType + sizeofNodeHeader) < 2 ^ 64)
    (h : (objectPoolRun sizeofType nPoolLen pBuf nodes).Reachable s) :
    Law s ∧ ∀ i t, step s i = some t → StepLaw s t i := by
  have hinv : Inv s := h.invariant (inv_init hlen hfits) fun _ _ _ hs hstep =>
    (hs.next hlen hfits hstep).1
  exact ⟨hinv.law hfits, fun i t hstep => (hinv.next hlen hfits hstep).2⟩

/-- Headers before a pool is made. -/
def noNodes : ℕ → NodeHeader := fun _ => ⟨none, 0, 0, false⟩

/-- A pool of one object: a second is made when it is exhausted, and the first is deleted. -/
theorem objectPoolLaw_one :
    ∃ s, (objectPoolRun 8 1 1000 noNodes).Reachable s ∧ s.live = [⟨9016, true⟩] ∧
      s.areas = [⟨9000, 24⟩, ⟨1000, 24⟩] ∧ Law s ∧
      ∀ i t, step s i = some t → StepLaw s t i := by
  obtain ⟨s, hs, hp⟩ := Machine.exists_reachable_of_run (M := objectPoolRun 8 1 1000 noNodes)
    [.new 0, .new 9000, .delete ⟨1016, false⟩]
    (fun s => s.live = [⟨9016, true⟩] ∧ s.areas = [⟨9000, 24⟩, ⟨1000, 24⟩]) (by decide +kernel)
  obtain ⟨hlive, hareas⟩ := of_decide_eq_true hp
  exact ⟨s, hs, hlive, hareas, objectPoolLaw (by decide) (by decide) hs⟩

/-- **For arbitrary sizes the law fails.**  Three slots of `2 ^ 63` bytes: the third is at the
place of the first, and of the three only one is in the list of the new pool. -/
theorem objectPoolLaw_of_size_fails : ∃ s : State (2 ^ 63 - 16) 3,
    Area.Fresh [] ⟨4096, ObjectPool.bufSize (2 ^ 63 - 16) 3⟩ ∧
      (objectPoolRun (2 ^ 63 - 16) 3 4096 noNodes).Reachable s ∧ ¬ Law s := by
  refine ⟨_, by decide, .init, fun hlaw => ?_⟩
  obtain ⟨l, hlinked, -, -, -, hlen⟩ := hlaw.chain
  have hone : Linked (objectPoolRun (2 ^ 63 - 16) 3 4096 noNodes).init.pool.next
      (objectPoolRun (2 ^ 63 - 16) 3 4096 noNodes).init.pool.pHeader [4096] :=
    ⟨rfl, show (objectPoolRun (2 ^ 63 - 16) 3 4096 noNodes).init.pool.next 4096 = none by
      decide +kernel⟩
  obtain rfl := hlinked.unique hone
  exact absurd hlen (by decide)

end ObjectPoolRun
end EasyTcpServer
