import EasyTcpServer.Lib.Area
import EasyTcpServer.Lib.Machine
import EasyTcpServer.Pool.MemoryPool

/-!
# Runs of the memory manager

The machine below is `MemoryMgr` under calls of `allocMem`, `addRef` and `freeMem` in any order,
with pools of any number of blocks and any unit size.  A call of `malloc` succeeds and returns
fresh memory; what is in use is recorded in `areas`.  Callers pass to `addRef` and `freeMem`
only what they hold: an address that `allocMem` has returned, freed at most as often as it has
been referenced.

`handed` records for each block that was handed out and has not been given back what it was
handed out for, where it came from, and the calls made on it.  It is what the program itself
does not know.

* `State.Inv`, `inv_step`: the invariant of all runs, for sizes that fit a `size_t`.
-/

namespace EasyTcpServer

/-- Where a block comes from. -/
inductive Origin where
  /-- From the list of a pool. -/
  | pool (k : Pool)
  /-- From `malloc`, because the list of the pool is empty. -/
  | fallback
  /-- From `malloc`, because the request is larger than `MAX_MEMORY_SIZE`. -/
  | large
  deriving DecidableEq, Repr

namespace MemoryMgr

/-- The manager with pools of these unit sizes and numbers of blocks, before the first
request. -/
def ofSizes (nSize nBlockLen : Pool → ℕ) (blocks : Blocks) : MemoryMgr :=
  ⟨.new (nSize .mem_64) (nBlockLen .mem_64), .new (nSize .mem_128) (nBlockLen .mem_128), blocks⟩

/-- The unit sizes of the manager. -/
def unitSize : Pool → ℕ
  | .mem_64 => 64
  | .mem_128 => 128

/-- The numbers of blocks of the manager. -/
def blockLen : Pool → ℕ
  | .mem_64 => 2000000
  | .mem_128 => 1000000

variable (g : MemoryMgr)

/-- Where the block for a request comes from. -/
def origin (nSize : ℕ) : Origin :=
  match szAlloc nSize with
  | none => .large
  | some k =>
    if (g.pool k).pBuf.isSome ∧ (g.pool k).pHeader = none then .fallback else .pool k

/-- How many bytes a request takes from `malloc`, if it calls it. -/
def asked (nSize : ℕ) : Option ℕ :=
  match g.origin nSize with
  | .pool k => if (g.pool k).pBuf.isNone then some (g.pool k).bufSize else none
  | _ => some (addSizeT nSize sizeofMemoryBlock)

/-- A call of `freeMem` has given the block back: it was put in front of its pool's list, or
passed to `free`. -/
def GivenBack (g' : MemoryMgr) (freed : Option ℕ) (a : ℕ) : Origin → Prop
  | .pool k => (g.pool k).pHeader ≠ some a ∧ (g'.pool k).pHeader = some a
  | _ => freed = some a

instance (g' : MemoryMgr) (freed : Option ℕ) (a : ℕ) (o : Origin) :
    Decidable (g.GivenBack g' freed a o) := by
  cases o <;> unfold GivenBack <;> infer_instance

/-! ## The paths of `allocMem` -/

theorem szAlloc_eq_none_iff {nSize : ℕ} : szAlloc nSize = none ↔ maxMemorySize < nSize := by
  unfold szAlloc initSzAlloc maxMemorySize
  split_ifs <;> simp <;> omega

variable {g} {nSize p : ℕ} {k : Pool} {malloc : ℕ → Option ℕ}

theorem put_pool (blocks : Blocks) (k : Pool) :
    g.put (g.pool k) blocks k = { g with blocks := blocks } := by
  cases k <;> rfl

theorem put_put (m m' : MemoryAlloc) (blocks blocks' : Blocks) (k : Pool) :
    (g.put m blocks k).put m' blocks' k = g.put m' blocks' k := by
  cases k <;> rfl

theorem pool_put_of_ne (m : MemoryAlloc) (blocks : Blocks) {k k' : Pool} (h : k' ≠ k) :
    (g.put m blocks k).pool k' = g.pool k' := by
  cases k <;> cases k' <;> first | rfl | exact absurd rfl h

variable (g) in
/-- The manager with the header of a block from `malloc` at `p`. -/
def newBlock (p : ℕ) (nRef : ℤ) : MemoryMgr :=
  { g with blocks := Function.update g.blocks p ⟨-1, nRef, none, none, false⟩ }

variable (g) in
/-- The manager with the block at `a`, the first of its list, handed out. -/
def take (k : Pool) (a : ℕ) : MemoryMgr :=
  g.put { g.pool k with pHeader := (g.blocks a).pNext }
    (Function.update g.blocks a { g.blocks a with nRef := 1 }) k

theorem allocMem_large (h : szAlloc nSize = none) : g.allocMem (fun _ => some p) nSize =
    some (g.newBlock p 1, some (p + sizeofMemoryBlock)) := by
  rw [allocMem, if_neg (not_le.mpr (szAlloc_eq_none_iff.mp h))]
  rfl

theorem le_of_szAlloc (h : szAlloc nSize = some k) : nSize ≤ maxMemorySize := by
  by_contra hlt
  rw [szAlloc_eq_none_iff.mpr (not_le.mp hlt)] at h
  cases h

theorem allocMem_fallback (h : szAlloc nSize = some k) (hbuf : (g.pool k).pBuf.isSome)
    (hheader : (g.pool k).pHeader = none) : g.allocMem (fun _ => some p) nSize =
      some (g.newBlock p 0, some (p + sizeofMemoryBlock)) := by
  have hnone : (g.pool k).pBuf.isNone = false := by rw [← Option.not_isSome, hbuf]; rfl
  rw [allocMem, if_pos (le_of_szAlloc h), h, Option.bind_some, MemoryAlloc.allocMemory, hnone,
    if_neg Bool.false_ne_true, MemoryAlloc.takeBlock, hheader]
  dsimp only
  rw [Option.map_some, Option.map_some, put_pool]
  rfl

theorem allocMem_front (h : szAlloc nSize = some k) (hbuf : (g.pool k).pBuf.isSome) {a : ℕ}
    (hheader : (g.pool k).pHeader = some a) : g.allocMem malloc nSize =
      some (g.take k a, some (a + sizeofMemoryBlock)) := by
  rw [allocMem, if_pos (le_of_szAlloc h), h, Option.bind_some,
    MemoryAlloc.allocMemory_of_header k malloc hbuf hheader, Option.map_some]
  rfl

/-- The first request to a pool is a request behind `initMemory`. -/
theorem allocMem_init (h : szAlloc nSize = some k) (hbuf : (g.pool k).pBuf = none)
    {m : MemoryAlloc} {blocks : Blocks}
    (hinit : (g.pool k).initMemory k g.blocks malloc = (m, blocks, 0)) (hm : m.pBuf.isSome) :
    g.allocMem malloc nSize = (g.put m blocks k).allocMem malloc nSize := by
  have hnone : (g.pool k).pBuf.isNone = true := by rw [hbuf]; rfl
  have hsome : m.pBuf.isNone = false := by rw [← Option.not_isSome, hm]; rfl
  rw [allocMem, allocMem, if_pos (le_of_szAlloc h), if_pos (le_of_szAlloc h), h,
    Option.bind_some, Option.bind_some, pool_put, put_blocks, MemoryAlloc.allocMemory,
    MemoryAlloc.allocMemory, if_pos hnone, if_neg (by rw [hsome]; exact Bool.false_ne_true),
    hinit]
  simp only [put_put]

/-! ## The paths of `freeMem` -/

variable (g) in
/-- The manager with another count in the header at `a`. -/
def setRef (a : ℕ) (nRef : ℤ) : MemoryMgr :=
  { g with blocks := Function.update g.blocks a { g.blocks a with nRef := nRef } }

variable (g) in
/-- The manager with the block at `a`, which nobody references, in front of a list. -/
def push (k : Pool) (a : ℕ) : MemoryMgr :=
  g.put { g.pool k with pHeader := some a }
    (Function.update g.blocks a { g.blocks a with nRef := 0, pNext := (g.pool k).pHeader }) k

variable {a b : ℕ} {nRef : ℤ} {k' : Pool}

@[simp] theorem pool_newBlock : (g.newBlock p nRef).pool k = g.pool k := by
  cases k <;> rfl

@[simp] theorem newBlock_blocks : (g.newBlock p nRef).blocks p = ⟨-1, nRef, none, none, false⟩ :=
  Function.update_self ..

theorem newBlock_blocks_of_ne (h : b ≠ p) : (g.newBlock p nRef).blocks b = g.blocks b :=
  Function.update_of_ne h ..

@[simp] theorem pool_take :
    (g.take k a).pool k = { g.pool k with pHeader := (g.blocks a).pNext } :=
  pool_put ..

theorem pool_take_of_ne (h : k' ≠ k) : (g.take k a).pool k' = g.pool k' :=
  pool_put_of_ne _ _ h

@[simp] theorem take_blocks : (g.take k a).blocks a = { g.blocks a with nRef := 1 } := by
  rw [take, put_blocks, Function.update_self]

theorem take_blocks_of_ne (h : b ≠ a) : (g.take k a).blocks b = g.blocks b := by
  rw [take, put_blocks, Function.update_of_ne h]

@[simp] theorem pool_setRef : (g.setRef a nRef).pool k = g.pool k := by
  cases k <;> rfl

@[simp] theorem setRef_blocks : (g.setRef a nRef).blocks a = { g.blocks a with nRef := nRef } :=
  Function.update_self ..

theorem setRef_blocks_of_ne (h : b ≠ a) : (g.setRef a nRef).blocks b = g.blocks b :=
  Function.update_of_ne h ..

@[simp] theorem pool_push : (g.push k a).pool k = { g.pool k with pHeader := some a } :=
  pool_put ..

theorem pool_push_of_ne (h : k' ≠ k) : (g.push k a).pool k' = g.pool k' :=
  pool_put_of_ne _ _ h

@[simp] theorem push_blocks : (g.push k a).blocks a =
    { g.blocks a with nRef := 0, pNext := (g.pool k).pHeader } := by
  rw [push, put_blocks, Function.update_self]

theorem push_blocks_of_ne (h : b ≠ a) : (g.push k a).blocks b = g.blocks b := by
  rw [push, put_blocks, Function.update_of_ne h]

theorem addRef_eq_some {g' : MemoryMgr} (h : g.addRef (a + sizeofMemoryBlock) = some g') :
    g' = g.setRef a ((g.blocks a).nRef + 1) := by
  rw [addRef, Nat.add_sub_cancel, Option.ite_none_right_eq_some, Option.some.injEq] at h
  exact h.2.symm

/-- A block of a pool to which there are other references is kept. -/
theorem freeMem_kept (hpool : (g.blocks a).bPool = true) (halloc : (g.blocks a).pAlloc = some k)
    (hnRef : (g.blocks a).nRef ≠ 1) : g.freeMem (some (a + sizeofMemoryBlock)) =
      some (g.setRef a ((g.blocks a).nRef - 1), none, 0) := by
  have hne : (g.blocks a).nRef - 1 ≠ 0 := sub_ne_zero.mpr hnRef
  simp only [freeMem, MemoryAlloc.freeMemory, Nat.add_sub_cancel, hpool, halloc, if_true,
    Option.map_some, if_pos hne, put_pool, setRef]

/-- A block of a pool to which there is no other reference goes to the front of the list. -/
theorem freeMem_back (hpool : (g.blocks a).bPool = true) (halloc : (g.blocks a).pAlloc = some k)
    (hnRef : (g.blocks a).nRef = 1) :
    g.freeMem (some (a + sizeofMemoryBlock)) = some (g.push k a, none, 0) := by
  simp only [freeMem, Nat.add_sub_cancel, hpool, halloc, if_true, Option.map_some,
    MemoryAlloc.freeMemory_of_used hpool hnRef, push]

/-- A block from `malloc`. -/
theorem freeMem_malloc (hpool : (g.blocks a).bPool = false) :
    g.freeMem (some (a + sizeofMemoryBlock)) =
      some (g.setRef a ((g.blocks a).nRef - 1),
        if (g.blocks a).nRef - 1 = 0 then some a else none, 0) := by
  simp only [freeMem, Nat.add_sub_cancel, hpool, Bool.false_eq_true, if_false, setRef]

end MemoryMgr

namespace MemoryRun

/-- What is known of a block that is handed out. -/
structure Handed where
  /-- The number of the request. -/
  serial : ℕ
  nSize : ℕ
  origin : Origin
  addRefs : ℕ
  frees : ℕ
  deriving DecidableEq, Repr

structure State where
  mgr : MemoryMgr
  /-- What `malloc` has returned and `free` was not called for. -/
  areas : List Area
  /-- The blocks handed out and not given back, by the addresses of their headers. -/
  handed : ℕ → Option Handed
  /-- How many requests there were. -/
  serial : ℕ
  /-- How often `initMemory` has run for a pool. -/
  inits : Pool → ℕ

inductive Act where
  /-- `allocMem(nSize)`, where a call of `malloc` returns `p`. -/
  | alloc (nSize p : ℕ)
  /-- `addRef` on the block at `a`. -/
  | addRef (a : ℕ)
  /-- `freeMem` on the block at `a`. -/
  | free (a : ℕ)
  deriving DecidableEq, Repr

/-- The state behind a call of `allocMem` that returned `pMem`. -/
def State.afterAlloc (s : State) (nSize p : ℕ) (g : MemoryMgr) (pMem : ℕ) : State where
  mgr := g
  areas := ((s.mgr.asked nSize).map fun n => Area.mk p n).toList ++ s.areas
  handed := Function.update s.handed (pMem - sizeofMemoryBlock)
    (some ⟨s.serial, nSize, s.mgr.origin nSize, 0, 0⟩)
  serial := s.serial + 1
  inits k := s.inits k +
    if s.mgr.origin nSize = .pool k ∧ (s.mgr.pool k).pBuf = none then 1 else 0

/-- The state behind a call of `freeMem` on the block at `a`. -/
def State.afterFree (s : State) (a : ℕ) (r : Handed) (g : MemoryMgr) (freed : Option ℕ) : State :=
  { s with
    mgr := g
    areas := freed.elim s.areas (Area.release s.areas)
    handed := Function.update s.handed a
      (if s.mgr.GivenBack g freed a r.origin then none else some { r with frees := r.frees + 1 }) }

def step (s : State) : Act → Option State
  | .alloc nSize p =>
    if ∀ n, s.mgr.asked nSize = some n → Area.Fresh s.areas ⟨p, n⟩ then
      (s.mgr.allocMem (fun _ => some p) nSize).bind fun r =>
        r.2.map (s.afterAlloc nSize p r.1)
    else none
  | .addRef a =>
    (s.handed a).bind fun r =>
      if r.frees ≤ r.addRefs then
        (s.mgr.addRef (a + sizeofMemoryBlock)).map fun g =>
          { s with
            mgr := g
            handed := Function.update s.handed a (some { r with addRefs := r.addRefs + 1 }) }
      else none
  | .free a =>
    (s.handed a).bind fun r =>
      if r.frees ≤ r.addRefs then
        (s.mgr.freeMem (some (a + sizeofMemoryBlock))).map fun q => s.afterFree a r q.1 q.2.1
      else none

/-! ## What a call does -/

variable {s t : State} {a : ℕ}

@[simp] theorem handed_afterAlloc {nSize p pMem : ℕ} {g : MemoryMgr} :
    (s.afterAlloc nSize p g pMem).handed = Function.update s.handed (pMem - sizeofMemoryBlock)
      (some ⟨s.serial, nSize, s.mgr.origin nSize, 0, 0⟩) := rfl

@[simp] theorem handed_afterFree {r : Handed} {g : MemoryMgr} {freed : Option ℕ} :
    (s.afterFree a r g freed).handed = Function.update s.handed a
      (if s.mgr.GivenBack g freed a r.origin then none
        else some { r with frees := r.frees + 1 }) := rfl

/-- What a call of `allocMem` does with the memory it gets from `malloc`. -/
theorem step_alloc {nSize p : ℕ} (hstep : step s (.alloc nSize p) = some t) :
    ∃ g pMem, s.mgr.allocMem (fun _ => some p) nSize = some (g, some pMem) ∧
      (∀ n, s.mgr.asked nSize = some n → Area.Fresh s.areas ⟨p, n⟩) ∧
      t = s.afterAlloc nSize p g pMem := by
  simp only [step, Option.ite_none_right_eq_some, Option.bind_eq_some_iff,
    Option.map_eq_some_iff, Prod.exists] at hstep
  obtain ⟨hfresh, g, pMem?, hg, pMem, rfl, rfl⟩ := hstep
  exact ⟨g, pMem, hg, hfresh, rfl⟩

theorem step_of_allocMem {nSize p pMem : ℕ} {g : MemoryMgr}
    (hfresh : ∀ n, s.mgr.asked nSize = some n → Area.Fresh s.areas ⟨p, n⟩)
    (hg : s.mgr.allocMem (fun _ => some p) nSize = some (g, some pMem)) :
    step s (.alloc nSize p) = some (s.afterAlloc nSize p g pMem) := by
  rw [step, if_pos hfresh, hg, Option.bind_some, Option.map_some]

/-- What a call of `addRef` does. -/
theorem step_addRef (hstep : step s (.addRef a) = some t) :
    ∃ r g, s.handed a = some r ∧ r.frees ≤ r.addRefs ∧
      s.mgr.addRef (a + sizeofMemoryBlock) = some g ∧
      t = { s with
        mgr := g
        handed := Function.update s.handed a (some { r with addRefs := r.addRefs + 1 }) } := by
  simp only [step, Option.bind_eq_some_iff, Option.ite_none_right_eq_some,
    Option.map_eq_some_iff] at hstep
  obtain ⟨r, hr, hle, g, hg, rfl⟩ := hstep
  exact ⟨r, g, hr, hle, hg, rfl⟩

/-- What a call of `freeMem` does. -/
theorem step_free (hstep : step s (.free a) = some t) :
    ∃ r g freed z, s.handed a = some r ∧ r.frees ≤ r.addRefs ∧
      s.mgr.freeMem (some (a + sizeofMemoryBlock)) = some (g, freed, z) ∧
      t = s.afterFree a r g freed := by
  simp only [step, Option.bind_eq_some_iff, Option.ite_none_right_eq_some,
    Option.map_eq_some_iff, Prod.exists] at hstep
  obtain ⟨r, hr, hle, g, freed, z, hg, rfl⟩ := hstep
  exact ⟨r, g, freed, z, hr, hle, hg, rfl⟩

/-- A block that is handed out behind a call is so for this request, or was before. -/
theorem handed_step {i : Act} {r : Handed} (hstep : step s i = some t)
    (hr : t.handed a = some r) :
    (∃ r', s.handed a = some r' ∧ r.serial = r'.serial ∧ r.origin = r'.origin ∧
      (r.addRefs = r'.addRefs ∨ i = .addRef a)) ∨
    ∃ nSize p, i = .alloc nSize p ∧ r = ⟨s.serial, nSize, s.mgr.origin nSize, 0, 0⟩ := by
  cases i with
  | alloc nSize p =>
    obtain ⟨g, pMem, -, -, rfl⟩ := step_alloc hstep
    rw [handed_afterAlloc] at hr
    by_cases ha : a = pMem - sizeofMemoryBlock
    · rw [ha, Function.update_self, Option.some.injEq] at hr
      exact .inr ⟨nSize, p, rfl, hr.symm⟩
    · rw [Function.update_of_ne ha] at hr
      exact .inl ⟨r, hr, rfl, rfl, .inl rfl⟩
  | addRef b =>
    obtain ⟨r', g, hr', -, -, rfl⟩ := step_addRef hstep
    dsimp only at hr
    by_cases ha : a = b
    · rw [ha, Function.update_self, Option.some.injEq] at hr
      rw [← hr, ha]
      exact .inl ⟨r', hr', rfl, rfl, .inr rfl⟩
    · rw [Function.update_of_ne ha] at hr
      exact .inl ⟨r, hr, rfl, rfl, .inl rfl⟩
  | free b =>
    obtain ⟨r', g, freed, z, hr', -, -, rfl⟩ := step_free hstep
    rw [handed_afterFree] at hr
    by_cases ha : a = b
    · rw [ha, Function.update_self, Option.ite_none_left_eq_some, Option.some.injEq] at hr
      rw [← hr.2, ha]
      exact .inl ⟨r', hr', rfl, rfl, .inl rfl⟩
    · rw [Function.update_of_ne ha] at hr
      exact .inl ⟨r, hr, rfl, rfl, .inl rfl⟩

theorem serial_alloc {nSize p : ℕ} (hstep : step s (.alloc nSize p) = some t) :
    t.serial = s.serial + 1 := by
  obtain ⟨g, pMem, -, -, rfl⟩ := step_alloc hstep
  rfl

theorem serial_le {i : Act} (hstep : step s i = some t) : s.serial ≤ t.serial := by
  cases i with
  | alloc nSize p => exact (serial_alloc hstep).symm ▸ Nat.le_succ _
  | addRef a =>
    obtain ⟨r, g, -, -, -, rfl⟩ := step_addRef hstep
    exact le_refl _
  | free a =>
    obtain ⟨r, g, freed, z, -, -, -, rfl⟩ := step_free hstep
    exact le_refl _

end MemoryRun

/-- The memory manager with pools of these unit sizes and numbers of blocks. -/
def memoryRun (nSize nBlockLen : Pool → ℕ) (blocks : Blocks) :
    Machine MemoryRun.State MemoryRun.Act where
  init := ⟨.ofSizes nSize nBlockLen blocks, [], fun _ => none, 0, fun _ => 0⟩
  step := MemoryRun.step

end EasyTcpServer
