import EasyTcpServer.Lib.FreeList
import Mathlib.Algebra.Order.Ring.Nat

/-!
# The memory pool

The global `operator new` and `operator delete` go to `MemoryMgr`.  A request of at most 128
bytes is served from one of two pools of blocks, a larger one by `malloc`.  In front of the
memory that is handed out stands a `MemoryBlock` with a reference count; the free blocks of a
pool are a list through these headers, and the last block that was freed is the first to be
handed out again.

Addresses are numbers, and the memory of all headers is one function on them.  `malloc` is a
parameter: for a size, an address or a null pointer.  The functions are those of a build
without assertions.  `none` stands for the use of a null pointer: `allocMemory` does not
look at what `malloc` returned.
-/

namespace EasyTcpServer

/-- The two pools of `MemoryMgr`. -/
inductive Pool where
  | mem_64
  | mem_128
  deriving DecidableEq, Repr

structure MemoryBlock where
  nID : ℤ
  nRef : ℤ
  pAlloc : Option Pool
  pNext : Option ℕ
  bPool : Bool
  deriving DecidableEq, Repr

/-- `sizeof(MemoryBlock)`. -/
def sizeofMemoryBlock : ℕ := 32

/-- A sum in `size_t`. -/
def addSizeT (m n : ℕ) : ℕ := (m + n) % 2 ^ 64

/-- A product in `size_t`. -/
def mulSizeT (m n : ℕ) : ℕ := m * n % 2 ^ 64

/-- The headers of all blocks. -/
abbrev Blocks := ℕ → MemoryBlock

structure MemoryAlloc where
  pBuf : Option ℕ
  pHeader : Option ℕ
  nSize : ℕ
  nBlockLen : ℕ
  deriving DecidableEq, Repr

namespace MemoryAlloc

/-- The constructor of `MemoryAlloctor<nSize, nBlockLen>`, which rounds the size up to a
multiple of the size of a pointer. -/
def new (nSize nBlockLen : ℕ) : MemoryAlloc :=
  let n := 8
  ⟨none, none, addSizeT (nSize / n * n) (if nSize % n ≠ 0 then n else 0), nBlockLen⟩

variable (m : MemoryAlloc) (this : Pool) (blocks : Blocks) (malloc : ℕ → Option ℕ)

/-- The size of the buffer. -/
def bufSize : ℕ := mulSizeT (addSizeT m.nSize sizeofMemoryBlock) m.nBlockLen

/-- The address of the header of a block. -/
def blockAt (nSize pBuf n : ℕ) : ℕ := pBuf + n * (nSize + sizeofMemoryBlock)

/-- The loop body of `initMemory`: the headers, and `pTemp1`. -/
def initBlock (pBuf : ℕ) : Blocks × ℕ → ℕ → Blocks × ℕ :=
  linkSlot (blockAt m.nSize pBuf) (fun n => ⟨n, 0, some this, none, true⟩)
    fun pTemp1 pTemp2 => { pTemp1 with pNext := some pTemp2 }

/-- `initMemory`. -/
def initMemory : MemoryAlloc × Blocks × ℤ :=
  if m.pBuf.isSome then (m, blocks, -1)
  else
    match malloc m.bufSize with
    | none => (m, blocks, -1)
    | some pBuf =>
      let blocks := Function.update blocks pBuf ⟨0, 0, some this, none, true⟩
      ({ m with pBuf := some pBuf, pHeader := some pBuf },
        ((List.range' 1 (m.nBlockLen - 1)).foldl (initBlock m this pBuf) (blocks, pBuf)).1, 0)

/-- `allocMemory` behind `initMemory`: the pool, the headers and the address handed out. -/
def takeBlock (nSize : ℕ) : Option (MemoryAlloc × Blocks × ℕ) :=
  match m.pHeader with
  | none =>
    (malloc (addSizeT nSize sizeofMemoryBlock)).map fun pReturn =>
      (m, Function.update blocks pReturn ⟨-1, 0, none, none, false⟩, pReturn + sizeofMemoryBlock)
  | some pReturn =>
    some ({ m with pHeader := (blocks pReturn).pNext },
      Function.update blocks pReturn { blocks pReturn with nRef := 1 },
      pReturn + sizeofMemoryBlock)

/-- `allocMemory`. -/
def allocMemory (nSize : ℕ) : Option (MemoryAlloc × Blocks × ℕ) :=
  if m.pBuf.isNone then
    let r := m.initMemory this blocks malloc
    r.1.takeBlock r.2.1 malloc nSize
  else m.takeBlock blocks malloc nSize

/-- `freeMemory`: the pool, the headers, the block given to `free`, and what is returned. -/
def freeMemory (pMem : ℕ) : MemoryAlloc × Blocks × Option ℕ × ℤ :=
  let pBlock := pMem - sizeofMemoryBlock
  let nRef := (blocks pBlock).nRef - 1
  let blocks' := Function.update blocks pBlock { blocks pBlock with nRef := nRef }
  if (blocks pBlock).bPool then
    if nRef ≠ 0 then (m, blocks', none, -1)
    else
      ({ m with pHeader := some pBlock },
        Function.update blocks' pBlock { blocks' pBlock with pNext := m.pHeader }, none, 0)
  else
    if nRef ≠ 0 then (m, blocks', none, -1)
    else (m, blocks', some pBlock, 0)

variable {m blocks} {a : ℕ}

/-- A block of a pool that is freed once goes to the front of the list. -/
theorem freeMemory_of_used (hpool : (blocks a).bPool = true) (hnRef : (blocks a).nRef = 1) :
    m.freeMemory blocks (a + sizeofMemoryBlock) =
      ({ m with pHeader := some a },
        Function.update blocks a { blocks a with nRef := 0, pNext := m.pHeader }, none, 0) := by
  simp only [freeMemory, Nat.add_sub_cancel, hpool, hnRef, sub_self, ne_eq, not_true_eq_false,
    if_true, if_false, Function.update_self, Function.update_idem]

/-- The block in front of the list is the next to be handed out. -/
theorem allocMemory_of_header (hbuf : m.pBuf.isSome) (hheader : m.pHeader = some a)
    (nSize : ℕ) : m.allocMemory this blocks malloc nSize =
      some ({ m with pHeader := (blocks a).pNext },
        Function.update blocks a { blocks a with nRef := 1 }, a + sizeofMemoryBlock) := by
  have hnone : m.pBuf.isNone = false := by rw [← Option.not_isSome, hbuf]; rfl
  rw [allocMemory, hnone, if_neg Bool.false_ne_true, takeBlock, hheader]

theorem blockAt_injective (nSize pBuf : ℕ) : Function.Injective (blockAt nSize pBuf) :=
  fun _ _ h =>
    Nat.eq_of_mul_eq_mul_right (Nat.add_pos_right _ (by decide)) (Nat.add_left_cancel h)

theorem blockAt_zero (nSize pBuf : ℕ) : blockAt nSize pBuf 0 = pBuf := by
  rw [blockAt, Nat.zero_mul, Nat.add_zero]

variable (blocks) in
/-- What `initMemory` makes of the headers: the blocks of the buffer are linked in order and
free, and nothing else is touched.  The first header is written also when `_nBlockLen` is 0. -/
theorem initMemory_headers {pBuf : ℕ} (hbuf : m.pBuf = none)
    (hmalloc : malloc m.bufSize = some pBuf) :
    ∃ blocks', m.initMemory this blocks malloc =
        ({ m with pBuf := some pBuf, pHeader := some pBuf }, blocks', 0) ∧
      (∀ i ≤ m.nBlockLen - 1, blocks' (blockAt m.nSize pBuf i) =
        ⟨i, 0, some this,
          if i < m.nBlockLen - 1 then some (blockAt m.nSize pBuf (i + 1)) else none, true⟩) ∧
      ∀ a, (∀ i ≤ m.nBlockLen - 1, a ≠ blockAt m.nSize pBuf i) → blocks' a = blocks a := by
  have hsome : m.pBuf.isSome = false := by rw [hbuf]; rfl
  obtain ⟨-, hblocks⟩ := foldl_linkSlot (blockAt_injective m.nSize pBuf)
    (fun n => (⟨n, 0, some this, none, true⟩ : MemoryBlock))
    (fun pTemp1 pTemp2 => { pTemp1 with pNext := some pTemp2 }) blocks (m.nBlockLen - 1)
  rw [blockAt_zero] at hblocks
  refine ⟨((List.range' 1 (m.nBlockLen - 1)).foldl (initBlock m this pBuf)
    (Function.update blocks pBuf ⟨0, 0, some this, none, true⟩, pBuf)).1, ?_, fun i hi => ?_,
    fun a ha => ?_⟩
  · rw [initMemory, hsome, if_neg Bool.false_ne_true, hmalloc]
  · refine (hblocks i hi).trans ?_
    by_cases hlast : i < m.nBlockLen - 1
    · rw [if_pos hlast, if_pos hlast]
    · rw [if_neg hlast, if_neg hlast]
  · have hfirst : a ≠ pBuf := by
      rw [← blockAt_zero m.nSize pBuf]
      exact ha 0 (Nat.zero_le _)
    refine (foldl_linkSlot_of_ne _ _ hfirst fun n hn => ha n ?_).trans
      (Function.update_of_ne hfirst _ _)
    rw [List.mem_range'_1] at hn
    omega

/-- What `initMemory` leaves behind: the first block is in front of the list. -/
theorem initMemory_of_malloc {pBuf : ℕ} (hbuf : m.pBuf = none)
    (hmalloc : malloc m.bufSize = some pBuf) :
    ∃ blocks', m.initMemory this blocks malloc =
        ({ m with pBuf := some pBuf, pHeader := some pBuf }, blocks', 0) ∧
      (blocks' pBuf).bPool = true ∧ (blocks' pBuf).pAlloc = some this ∧
      (blocks' pBuf).nRef = 0 := by
  obtain ⟨blocks', hinit, hheaders, -⟩ := initMemory_headers this blocks malloc hbuf hmalloc
  have hfirst := hheaders 0 (Nat.zero_le _)
  rw [blockAt_zero] at hfirst
  exact ⟨blocks', hinit, by rw [hfirst], by rw [hfirst], by rw [hfirst]⟩

variable (blocks) in
/-- The same in the terms of the blocks, when there is one. -/
theorem initMemory_blocks {pBuf : ℕ} (hbuf : m.pBuf = none) (hlen : 1 ≤ m.nBlockLen)
    (hmalloc : malloc m.bufSize = some pBuf) :
    ∃ blocks', m.initMemory this blocks malloc =
        ({ m with pBuf := some pBuf, pHeader := some pBuf }, blocks', 0) ∧
      (∀ i < m.nBlockLen, blocks' (blockAt m.nSize pBuf i) =
        ⟨i, 0, some this,
          if i + 1 < m.nBlockLen then some (blockAt m.nSize pBuf (i + 1)) else none, true⟩) ∧
      ∀ a, (∀ i < m.nBlockLen, a ≠ blockAt m.nSize pBuf i) → blocks' a = blocks a := by
  obtain ⟨blocks', hinit, hheaders, hothers⟩ :=
    initMemory_headers this blocks malloc hbuf hmalloc
  refine ⟨blocks', hinit, fun i hi => ?_, fun a ha => hothers a fun i hi => ha i (by omega)⟩
  have hlast : i < m.nBlockLen - 1 ↔ i + 1 < m.nBlockLen := by omega
  rw [hheaders i (by omega), if_congr hlast rfl rfl]

end MemoryAlloc

structure MemoryMgr where
  mem_64 : MemoryAlloc
  mem_128 : MemoryAlloc
  blocks : Blocks

namespace MemoryMgr

/-- `MAX_MEMORY_SIZE`. -/
def maxMemorySize : ℕ := 128

/-- `init_szAlloc`. -/
def initSzAlloc (nBegin nEnd : ℕ) (pMemA : Pool) (szAlloc : ℕ → Option Pool) : ℕ → Option Pool :=
  fun n => if nBegin ≤ n ∧ n ≤ nEnd then some pMemA else szAlloc n

/-- The table `_szAlloc` after the constructor. -/
def szAlloc : ℕ → Option Pool :=
  initSzAlloc 65 128 .mem_128 (initSzAlloc 0 64 .mem_64 fun _ => none)

/-- The manager before the first request. -/
def new (blocks : Blocks) : MemoryMgr := ⟨.new 64 2000000, .new 128 1000000, blocks⟩

variable (g : MemoryMgr)

def pool : Pool → MemoryAlloc
  | .mem_64 => g.mem_64
  | .mem_128 => g.mem_128

/-- The manager with another state of one pool and of the headers. -/
def put (m : MemoryAlloc) (blocks : Blocks) : Pool → MemoryMgr
  | .mem_64 => { g with mem_64 := m, blocks := blocks }
  | .mem_128 => { g with mem_128 := m, blocks := blocks }

/-- `allocMem`: the manager and the address handed out, which may be null. -/
def allocMem (malloc : ℕ → Option ℕ) (nSize : ℕ) : Option (MemoryMgr × Option ℕ) :=
  if nSize ≤ maxMemorySize then
    (szAlloc nSize).bind fun k =>
      ((g.pool k).allocMemory k g.blocks malloc nSize).map fun r =>
        (g.put r.1 r.2.1 k, some r.2.2)
  else
    match malloc (addSizeT nSize sizeofMemoryBlock) with
    | none => some (g, none)
    | some pReturn =>
      some ({ g with blocks := Function.update g.blocks pReturn ⟨-1, 1, none, none, false⟩ },
        some (pReturn + sizeofMemoryBlock))

/-- `freeMem`: the manager, the block given to `free`, and what is returned. -/
def freeMem : Option ℕ → Option (MemoryMgr × Option ℕ × ℤ)
  | none => some (g, none, -1)
  | some pMem =>
    let pBlock := pMem - sizeofMemoryBlock
    if (g.blocks pBlock).bPool then
      (g.blocks pBlock).pAlloc.map fun k =>
        let r := (g.pool k).freeMemory g.blocks pMem
        (g.put r.1 r.2.1 k, r.2.2.1, 0)
    else
      let nRef := (g.blocks pBlock).nRef - 1
      let blocks := Function.update g.blocks pBlock { g.blocks pBlock with nRef := nRef }
      some ({ g with blocks := blocks }, if nRef = 0 then some pBlock else none, 0)

/-- `addRef`, for an address that is not null.  It has no result past `INT_MAX`. -/
def addRef (pMem : ℕ) : Option MemoryMgr :=
  let pBlock := pMem - sizeofMemoryBlock
  if (g.blocks pBlock).nRef < 2147483647 then
    some { g with
      blocks := Function.update g.blocks pBlock
        { g.blocks pBlock with nRef := (g.blocks pBlock).nRef + 1 } }
  else none

/-- `assert(1 == pBlock->nRef)` in `freeMemory`, which only blocks of a pool get to. -/
def FreeAssert (pMem : ℕ) : Prop :=
  (g.blocks (pMem - sizeofMemoryBlock)).bPool = true →
    (g.blocks (pMem - sizeofMemoryBlock)).nRef = 1

instance (pMem : ℕ) : Decidable (g.FreeAssert pMem) := by
  unfold FreeAssert
  infer_instance

@[simp] theorem put_blocks (m : MemoryAlloc) (blocks : Blocks) (k : Pool) :
    (g.put m blocks k).blocks = blocks := by
  cases k <;> rfl

@[simp] theorem pool_put (m : MemoryAlloc) (blocks : Blocks) (k : Pool) :
    (g.put m blocks k).pool k = m := by
  cases k <;> rfl

/-! ## A block of a pool

A block that is in use, once it is freed, is in front of its pool's list, and the next request
to that pool gets it. -/

/-- The block `a` of the pool `k` is handed out, once. -/
structure InUse (k : Pool) (a : ℕ) : Prop where
  initialised : (g.pool k).pBuf.isSome
  bPool : (g.blocks a).bPool = true
  pAlloc : (g.blocks a).pAlloc = some k
  nRef : (g.blocks a).nRef = 1

/-- The block `a` of the pool `k` is the next to be handed out. -/
structure InFront (k : Pool) (a : ℕ) : Prop where
  initialised : (g.pool k).pBuf.isSome
  pHeader : (g.pool k).pHeader = some a
  bPool : (g.blocks a).bPool = true
  pAlloc : (g.blocks a).pAlloc = some k
  nRef : (g.blocks a).nRef = 0

variable {g} {k : Pool} {a : ℕ}

theorem InUse.freeAssert (h : g.InUse k a) : g.FreeAssert (a + sizeofMemoryBlock) := by
  intro _
  rw [Nat.add_sub_cancel]
  exact h.nRef

/-- A free block must not be freed. -/
theorem InFront.not_freeAssert (h : g.InFront k a) : ¬ g.FreeAssert (a + sizeofMemoryBlock) := by
  intro hassert
  rw [FreeAssert, Nat.add_sub_cancel] at hassert
  have hone := hassert h.bPool
  rw [h.nRef] at hone
  cases hone

theorem InUse.freeMem (h : g.InUse k a) :
    ∃ g', g.freeMem (some (a + sizeofMemoryBlock)) = some (g', none, 0) ∧ g'.InFront k a := by
  refine ⟨g.put { g.pool k with pHeader := some a } (Function.update g.blocks a
    { g.blocks a with nRef := 0, pNext := (g.pool k).pHeader }) k, ?_, ?_⟩
  · simp only [MemoryMgr.freeMem, Nat.add_sub_cancel, h.bPool, h.pAlloc, if_true,
      Option.map_some, MemoryAlloc.freeMemory_of_used h.bPool h.nRef]
  · constructor <;> simp [h.initialised, h.bPool, h.pAlloc]

theorem InFront.allocMem (h : g.InFront k a) (malloc : ℕ → Option ℕ) {nSize : ℕ}
    (hsize : nSize ≤ maxMemorySize) (hk : szAlloc nSize = some k) :
    ∃ g', g.allocMem malloc nSize = some (g', some (a + sizeofMemoryBlock)) ∧ g'.InUse k a := by
  refine ⟨g.put { g.pool k with pHeader := (g.blocks a).pNext }
    (Function.update g.blocks a { g.blocks a with nRef := 1 }) k, ?_, ?_⟩
  · rw [MemoryMgr.allocMem, if_pos hsize, hk, Option.bind_some,
      MemoryAlloc.allocMemory_of_header k malloc h.initialised h.pHeader, Option.map_some]
  · constructor <;> simp [h.initialised, h.bPool, h.pAlloc]

/-- Every pool serves some size. -/
theorem exists_szAlloc (k : Pool) : ∃ nSize ≤ maxMemorySize, szAlloc nSize = some k := by
  cases k
  · exact ⟨0, by decide, by decide⟩
  · exact ⟨65, by decide, by decide⟩

/-- What the header of a block that was handed out has: a block of a pool names its pool. -/
def HandedOut (g : MemoryMgr) (a : ℕ) : Prop :=
  (g.blocks a).bPool = true → (g.blocks a).pAlloc.isSome

theorem InUse.handedOut (h : g.InUse k a) : g.HandedOut a := fun _ => by
  rw [h.pAlloc]
  rfl

theorem InFront.handedOut (h : g.InFront k a) : g.HandedOut a := fun _ => by
  rw [h.pAlloc]
  rfl

/-- However often a block is freed, freeing it once more is still possible. -/
theorem HandedOut.freeMem (h : g.HandedOut a) :
    ∃ r, g.freeMem (some (a + sizeofMemoryBlock)) = some r ∧ r.1.HandedOut a := by
  rcases hpool : (g.blocks a).bPool with _ | _
  · simp only [MemoryMgr.freeMem, Nat.add_sub_cancel, hpool, Bool.false_eq_true, if_false,
      Option.some.injEq, exists_eq_left']
    intro hin
    simp at hin
  · obtain ⟨k, hk⟩ := Option.isSome_iff_exists.mp (h hpool)
    simp only [MemoryMgr.freeMem, Nat.add_sub_cancel, hpool, hk, if_true, Option.map_some,
      Option.some.injEq, exists_eq_left']
    intro _
    rw [put_blocks, MemoryAlloc.freeMemory, Nat.add_sub_cancel]
    split_ifs <;> simp [hk]

/-- The first request to a pool gets its first block. -/
theorem allocMem_first {malloc : ℕ → Option ℕ} {pBuf nSize : ℕ} (hbuf : (g.pool k).pBuf = none)
    (hmalloc : malloc (g.pool k).bufSize = some pBuf)
    (hsize : nSize ≤ maxMemorySize) (hk : szAlloc nSize = some k) :
    ∃ g', g.allocMem malloc nSize = some (g', some (pBuf + sizeofMemoryBlock)) ∧
      g'.InUse k pBuf := by
  obtain ⟨blocks', hinit, hpool, halloc, -⟩ : ∃ blocks',
      (g.pool k).initMemory k g.blocks malloc =
        ({ g.pool k with pBuf := some pBuf, pHeader := some pBuf }, blocks', 0) ∧ _ :=
    MemoryAlloc.initMemory_of_malloc k malloc hbuf hmalloc
  have hnone : (g.pool k).pBuf.isNone = true := by rw [hbuf]; rfl
  refine ⟨g.put { g.pool k with pBuf := some pBuf, pHeader := (blocks' pBuf).pNext }
    (Function.update blocks' pBuf { blocks' pBuf with nRef := 1 }) k, ?_, ?_⟩
  · rw [MemoryMgr.allocMem, if_pos hsize, hk, Option.bind_some, MemoryAlloc.allocMemory,
      if_pos hnone, hinit]
    rfl
  · constructor <;> simp [hpool, halloc]

end MemoryMgr
end EasyTcpServer
