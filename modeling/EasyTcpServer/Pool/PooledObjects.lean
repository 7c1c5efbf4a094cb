import EasyTcpServer.Pool.ObjectPoolRun
import EasyTcpServer.Pool.PoolLaw

/-!
# An object pool over the memory manager

The buffer of an object pool and the blocks of the objects that find it empty come from the
global `operator new[]`, which is `MemoryMgr::allocMem`; they go back by the global `operator
delete`, which is `freeMem`.  The machine below is both together, with the calls of the rest of
the program, which frees only what it holds.

`Pool.ObjectPoolRun` takes for granted that the global `operator new[]` returns fresh memory.
Here that is a theorem: every area of the object pool is the user area of a block that the
manager has handed out, and two of these share no byte.

* `Inv`: what holds throughout, and what each call keeps.
* `pooledObjectsLaw`: both laws hold in every run, and every object can be deleted.
-/

namespace EasyTcpServer

namespace PooledObjects

open MemoryRun (Plain Handed)
open ObjectPoolRun (Object blockArea)

/-- The memory manager, and the pool of a class once it is made. -/
structure State (sizeofType nPoolLen : ℕ) where
  memory : MemoryRun.State
  objects : Option (ObjectPoolRun.State sizeofType nPoolLen)

inductive Act where
  /-- The rest of the program calls `operator new`, where a call of `malloc` returns `p`. -/
  | alloc (nSize p : ℕ)
  /-- It calls `operator delete` for the block at `a`. -/
  | free (a : ℕ)
  /-- The pool is made. -/
  | make (p : ℕ)
  /-- `operator new(sizeof(Type))`. -/
  | new (p : ℕ)
  /-- `operator delete` of an object. -/
  | delete (o : Object)
  deriving DecidableEq, Repr

/-- The global `operator new[]`: what is left, and the address returned. -/
def globalNew (m : MemoryRun.State) (nSize p : ℕ) : Option (MemoryRun.State × ℕ) :=
  (MemoryRun.step m (.alloc nSize p)).bind fun m' =>
    (m.mgr.allocMem (fun _ => some p) nSize).bind fun r => r.2.map fun pMem => (m', pMem)

/-- The global `operator delete`. -/
def globalDelete (m : MemoryRun.State) (pMem : ℕ) : Option MemoryRun.State :=
  MemoryRun.step m (.free (pMem - sizeofMemoryBlock))

variable {sizeofType nPoolLen : ℕ}

/-- The pool behind `allocObject`, where a call of the global `operator new[]` returns `p`. -/
def afterNew (o : ObjectPoolRun.State sizeofType nPoolLen) (p : ℕ) :
    ObjectPoolRun.State sizeofType nPoolLen :=
  let exhausted := o.pool.pHeader.isNone
  let r := o.pool.allocObject sizeofType fun _ => p
  ⟨r.1, if exhausted then blockArea sizeofType p :: o.areas else o.areas,
    ⟨r.2, exhausted⟩ :: o.live⟩

/-- The pool behind `freeObjectMemory`. -/
def afterDelete (o : ObjectPoolRun.State sizeofType nPoolLen) (x : Object) :
    ObjectPoolRun.State sizeofType nPoolLen :=
  let r := o.pool.freeObjectMemory x.pMem
  ⟨r.1, r.2.1.elim o.areas (Area.release o.areas), o.live.erase x⟩

/-- The block at `a` is not the pool's. -/
def Foreign (s : State sizeofType nPoolLen) (a : ℕ) : Prop :=
  ∀ o ∈ s.objects, ∀ r ∈ o.areas, r.start ≠ a + sizeofMemoryBlock

instance (s : State sizeofType nPoolLen) (a : ℕ) : Decidable (Foreign s a) := by
  unfold Foreign
  cases s.objects with
  | none => exact isTrue (by simp)
  | some o => exact decidable_of_iff (∀ r ∈ o.areas, r.start ≠ a + sizeofMemoryBlock) (by simp)

def step (nodes : ℕ → NodeHeader) (s : State sizeofType nPoolLen) :
    Act → Option (State sizeofType nPoolLen)
  | .alloc nSize p => (globalNew s.memory nSize p).map fun r => { s with memory := r.1 }
  | .free a =>
    if Foreign s a then (MemoryRun.step s.memory (.free a)).map fun m => { s with memory := m }
    else none
  | .make p =>
    if s.objects.isNone then
      (globalNew s.memory (ObjectPool.bufSize sizeofType nPoolLen) p).map fun r =>
        ⟨r.1, some (objectPoolRun sizeofType nPoolLen r.2 nodes).init⟩
    else none
  | .new p =>
    s.objects.bind fun o =>
      if o.pool.pHeader.isNone then
        (globalNew s.memory (sizeofType + sizeofNodeHeader) p).map fun r =>
          ⟨r.1, some (afterNew o r.2)⟩
      else some { s with objects := some (afterNew o 0) }
  | .delete x =>
    s.objects.bind fun o =>
      if x ∈ o.live then
        match (o.pool.freeObjectMemory x.pMem).2.1 with
        | none => some { s with objects := some (afterDelete o x) }
        | some pBlock =>
          (globalDelete s.memory pBlock).map fun m => ⟨m, some (afterDelete o x)⟩
      else none

end PooledObjects

open PooledObjects in
/-- The memory manager with the pool of a class. -/
def pooledObjects (sizeofType nPoolLen : ℕ) (blocks : Blocks) (nodes : ℕ → NodeHeader) :
    Machine (State sizeofType nPoolLen) Act where
  init := ⟨(memoryRun MemoryMgr.unitSize MemoryMgr.blockLen blocks).init, none⟩
  step := step nodes

namespace PooledObjects

open MemoryRun (Plain Handed)
open ObjectPoolRun (Object blockArea)

/-! ## Blocks that the manager has handed out -/

section Memory

variable {m m' : MemoryRun.State} {a b nSize p pMem : ℕ} {r r' : Handed}

/-- The area is the user area of a block that is handed out and can be freed. -/
def Held (m : MemoryRun.State) (q : Area) : Prop :=
  ∃ a r, q.start = a + sizeofMemoryBlock ∧ m.handed a = some r ∧ r.nSize = q.size ∧
    r.frees ≤ r.addRefs

/-- What the callers of the manager get. -/
structure Manages (m : MemoryRun.State) : Prop where
  inv : m.Inv
  serves : MemoryRun.Serves m
  bound : ∀ q ∈ m.areas, q.start + q.size ≤ 2 ^ 64

/-- A block that is handed out is as large as the request. -/
theorem Manages.exists_block (h : Manages m) (hr : m.handed a = some r) :
    ∃ n, m.Block a n ∧ r.nSize ≤ n := by
  rcases h.inv.handed a r hr with ⟨k, hk, hblock⟩ | ⟨hmalloc, -⟩
  · exact ⟨_, .pool hblock, h.serves k a r hr hk⟩
  · exact ⟨_, .malloc hr hmalloc, le_refl _⟩

theorem user_within {n : ℕ} (h : r.nSize ≤ n) :
    (Area.mk (a + sizeofMemoryBlock) r.nSize).Within ⟨a, n + sizeofMemoryBlock⟩ := by
  unfold Area.Within
  dsimp only
  omega

/-- Two blocks that are handed out share no byte. -/
theorem Manages.apart (h : Manages m) (hr : m.handed a = some r) (hr' : m.handed b = some r')
    (hne : a ≠ b) :
    (Area.mk (a + sizeofMemoryBlock) r.nSize).Apart ⟨b + sizeofMemoryBlock, r'.nSize⟩ := by
  obtain ⟨n, hn, hle⟩ := h.exists_block hr
  obtain ⟨n', hn', hle'⟩ := h.exists_block hr'
  exact (h.inv.extent_apart hn hn' hne).of_within (user_within hle) (user_within hle')

/-- They lie in the address space. -/
theorem Manages.within_bound (h : Manages m) (hr : m.handed a = some r) :
    a + sizeofMemoryBlock + r.nSize ≤ 2 ^ 64 := by
  obtain ⟨n, hn, hle⟩ := h.exists_block hr
  obtain ⟨q, hq, hwithin, -⟩ := h.inv.owner hn
  have hend := hwithin.2
  have hbound := h.bound q hq
  dsimp only at hend
  omega

theorem allocMem_ge {g g' : MemoryMgr} {malloc : ℕ → Option ℕ}
    (h : g.allocMem malloc nSize = some (g', some pMem)) : sizeofMemoryBlock ≤ pMem := by
  have htake {k : MemoryAlloc} {blocks : Blocks} {q : MemoryAlloc × Blocks × ℕ}
      (hq : k.takeBlock blocks malloc nSize = some q) : sizeofMemoryBlock ≤ q.2.2 := by
    unfold MemoryAlloc.takeBlock at hq
    split at hq
    · obtain ⟨pReturn, -, rfl⟩ := Option.map_eq_some_iff.mp hq
      exact Nat.le_add_left _ _
    · obtain rfl := Option.some.inj hq
      exact Nat.le_add_left _ _
  unfold MemoryMgr.allocMem at h
  split at h
  · obtain ⟨k, -, h⟩ := Option.bind_eq_some_iff.mp h
    obtain ⟨q, hq, hq'⟩ := Option.map_eq_some_iff.mp h
    simp only [Prod.mk.injEq, Option.some.injEq] at hq'
    rw [← hq'.2]
    unfold MemoryAlloc.allocMemory at hq
    split at hq
    · exact htake hq
    · exact htake hq
  · split at h
    · simp at h
    · simp only [Option.some.injEq, Prod.mk.injEq] at h
      rw [← h.2]
      exact Nat.le_add_left _ _

/-- What the global `operator new[]` does. -/
theorem globalNew_cases (h : globalNew m nSize p = some (m', pMem)) :
    MemoryRun.step m (.alloc nSize p) = some m' ∧ ∃ g,
      m.mgr.allocMem (fun _ => some p) nSize = some (g, some pMem) ∧
        (∀ n, m.mgr.asked nSize = some n → Area.Fresh m.areas ⟨p, n⟩) ∧
          m' = m.afterAlloc nSize p g pMem := by
  simp only [globalNew, Option.bind_eq_some_iff, Option.map_eq_some_iff, Prod.mk.injEq,
    Prod.exists] at h
  obtain ⟨m'', hstep, g, q, hg, pMem', rfl, rfl, rfl⟩ := h
  obtain ⟨g', pMem'', hg', hfresh, ht⟩ := MemoryRun.step_alloc hstep
  obtain ⟨rfl, hpMem⟩ := Prod.mk.inj (Option.some.inj (hg'.symm.trans hg))
  obtain rfl := Option.some.inj hpMem
  exact ⟨hstep, g', hg, hfresh, ht⟩

theorem Manages.of_alloc (h : Manages m) (hinv : m'.Inv) (hserves : MemoryRun.Serves m')
    (hnew : globalNew m nSize p = some (m', pMem)) : Manages m' := by
  obtain ⟨-, g, -, hfresh, rfl⟩ := globalNew_cases hnew
  refine ⟨hinv, hserves, fun q hq => ?_⟩
  rcases List.mem_append.mp hq with hq | hq
  · rw [Option.mem_toList, Option.map_eq_some_iff] at hq
    obtain ⟨n, hn, rfl⟩ := hq
    exact (hfresh n hn).2.1
  · exact h.bound q hq

/-- **What the global `operator new[]` returns is fresh** for everything that is held, which
stays so. -/
theorem Manages.globalNew (h : Manages m) (h' : Manages m')
    (hsize : nSize + sizeofMemoryBlock < 2 ^ 64)
    (hnew : globalNew m nSize p = some (m', pMem)) {areas : List Area}
    (hareas : ∀ q ∈ areas, Held m q) :
    Area.Fresh areas ⟨pMem, nSize⟩ ∧ ∀ q ∈ ⟨pMem, nSize⟩ :: areas, Held m' q := by
  obtain ⟨-, g, hg, hfresh, rfl⟩ := globalNew_cases hnew
  have hnone := h.inv.handed_alloc hsize hfresh hg
  have hge := Nat.sub_add_cancel (allocMem_ge hg)
  have hself : (m.afterAlloc nSize p g pMem).handed (pMem - sizeofMemoryBlock) =
      some ⟨m.serial, nSize, m.mgr.origin nSize, 0, 0⟩ := by
    rw [MemoryRun.handed_afterAlloc, Function.update_self]
  have hother {b : ℕ} {r : Handed} (hr : m.handed b = some r) : b ≠ pMem - sizeofMemoryBlock ∧
      (m.afterAlloc nSize p g pMem).handed b = some r := by
    have hne : b ≠ pMem - sizeofMemoryBlock := by
      rintro rfl
      rw [hnone] at hr
      exact absurd hr.symm (Option.some_ne_none r)
    refine ⟨hne, ?_⟩
    rw [MemoryRun.handed_afterAlloc, Function.update_of_ne hne, hr]
  refine ⟨⟨?_, ?_, fun q hq => ?_⟩, fun q hq => ?_⟩
  · have hpos : 0 < sizeofMemoryBlock := by decide
    show 0 < pMem
    omega
  · have hbound := h'.within_bound hself
    dsimp only at hbound
    rwa [hge] at hbound
  · obtain ⟨b, r, hstart, hr, hq', -⟩ := hareas q hq
    obtain ⟨hne, hr'⟩ := hother hr
    have hapart := h'.apart hself hr' (Ne.symm hne)
    dsimp only at hapart
    rwa [hge, ← hstart, hq'] at hapart
  · rcases List.mem_cons.mp hq with rfl | hq
    · exact ⟨_, _, hge.symm, hself, rfl, le_refl _⟩
    · obtain ⟨b, r, hstart, hr, hq', hle⟩ := hareas q hq
      exact ⟨b, r, hstart, (hother hr).2, hq', hle⟩

/-- A block that is held can be freed. -/
theorem Manages.exists_free (h : Manages m) (hr : m.handed a = some r)
    (hle : r.frees ≤ r.addRefs) : ∃ m', MemoryRun.step m (.free a) = some m' := by
  rcases h.inv.handed a r hr with ⟨k, hk, -⟩ | ⟨hmalloc, -⟩
  · rcases Nat.lt_or_eq_of_le hle with hlt | heq
    · exact ⟨_, h.inv.step_free_kept hr hk hlt⟩
    · exact ⟨_, h.inv.step_free_back hr hk heq⟩
  · exact ⟨_, h.inv.step_free_malloc hr hmalloc hle⟩

/-- The other blocks stay as they are. -/
theorem Held.free {q : Area} (h : Held m q) (hstep : MemoryRun.step m (.free a) = some m')
    (hne : q.start ≠ a + sizeofMemoryBlock) : Held m' q := by
  obtain ⟨b, r, hstart, hr, hq⟩ := h
  obtain ⟨r', g, freed, z, -, -, -, rfl⟩ := MemoryRun.step_free hstep
  have hba : b ≠ a := by
    rintro rfl
    exact hne hstart
  refine ⟨b, r, hstart, ?_, hq⟩
  rw [MemoryRun.handed_afterFree, Function.update_of_ne hba, hr]

theorem bound_free (h : ∀ q ∈ m.areas, q.start + q.size ≤ 2 ^ 64)
    (hstep : MemoryRun.step m (.free a) = some m') : ∀ q ∈ m'.areas, q.start + q.size ≤ 2 ^ 64 := by
  obtain ⟨r', g, freed, z, -, -, -, rfl⟩ := MemoryRun.step_free hstep
  intro q hq
  cases freed with
  | none => exact h q hq
  | some b => exact h q (Area.mem_release.mp hq).1

end Memory

/-! ## The invariant -/

section Invariant

variable {sizeofType nPoolLen : ℕ} {blocks : Blocks} {nodes : ℕ → NodeHeader}
  {s t : State sizeofType nPoolLen} {o : ObjectPoolRun.State sizeofType nPoolLen} {x : Object}
  {p : ℕ}

/-- The requests of the rest of the program fit a `size_t`. -/
def Fits (_ : State sizeofType nPoolLen) : Act → Prop
  | .alloc nSize _ => nSize + sizeofMemoryBlock < 2 ^ 64
  | _ => True

/-- What holds throughout. -/
structure Inv (blocks : Blocks) (nodes : ℕ → NodeHeader) (s : State sizeofType nPoolLen) :
    Prop where
  memory : (memoryRun MemoryMgr.unitSize MemoryMgr.blockLen blocks).ReachWithin Plain s.memory
  bound : ∀ q ∈ s.memory.areas, q.start + q.size ≤ 2 ^ 64
  objects : ∀ o, s.objects = some o →
    (objectPoolRun sizeofType nPoolLen o.pool.pBuf nodes).Reachable o ∧
      ∀ q ∈ o.areas, Held s.memory q

theorem one_le_blockLen (k : Pool) : 1 ≤ MemoryMgr.blockLen k := by
  cases k <;> decide

theorem buffersFit : MemoryRun.BuffersFit MemoryMgr.unitSize MemoryMgr.blockLen := by
  intro k
  cases k <;> decide

theorem unitSize_le (k : Pool) :
    MemoryMgr.unitSize k ≤
      (MemoryAlloc.new (MemoryMgr.unitSize k) (MemoryMgr.blockLen k)).nSize := by
  cases k <;> decide

/-- What the manager guarantees to its callers. -/
theorem manages {m : MemoryRun.State}
    (h : (memoryRun MemoryMgr.unitSize MemoryMgr.blockLen blocks).ReachWithin Plain m)
    (hbound : ∀ q ∈ m.areas, q.start + q.size ≤ 2 ^ 64) : Manages m := by
  have hinv := MemoryRun.inv_of_reach one_le_blockLen buffersFit (fun _ _ hi => hi.2) h
  refine ⟨hinv, hinv.serves fun k => ?_, hbound⟩
  rw [(MemoryRun.sized_of_reach h k).1]
  exact unitSize_le k

theorem Inv.manages (h : Inv blocks nodes s) : Manages s.memory :=
  PooledObjects.manages h.memory h.bound

/-- A call of the global `operator new[]` is a request to the manager. -/
theorem Inv.globalNew (h : Inv blocks nodes s) {nSize pMem : ℕ} {m : MemoryRun.State}
    (hsize : nSize + sizeofMemoryBlock < 2 ^ 64)
    (hnew : globalNew s.memory nSize p = some (m, pMem)) :
    (memoryRun MemoryMgr.unitSize MemoryMgr.blockLen blocks).ReachWithin Plain m ∧
      Manages m ∧ ∀ areas : List Area, (∀ q ∈ areas, Held s.memory q) →
        Area.Fresh areas ⟨pMem, nSize⟩ ∧ ∀ q ∈ ⟨pMem, nSize⟩ :: areas, Held m q := by
  obtain ⟨hstep, -⟩ := globalNew_cases hnew
  have hreach := h.memory.step (show Plain _ (.alloc nSize p) from ⟨trivial, hsize⟩) hstep
  have hinv := MemoryRun.inv_of_reach one_le_blockLen buffersFit (fun _ _ hi => hi.2) hreach
  have hserves : MemoryRun.Serves m := by
    refine hinv.serves fun k => ?_
    rw [(MemoryRun.sized_of_reach hreach k).1]
    exact unitSize_le k
  have hmanages := h.manages.of_alloc hinv hserves hnew
  exact ⟨hreach, hmanages, fun areas hareas => h.manages.globalNew hmanages hsize hnew hareas⟩

/-! ### The object pool -/

theorem step_new_eq (hfresh : o.pool.pHeader.isNone = true →
    Area.Fresh o.areas (blockArea sizeofType p)) :
    ObjectPoolRun.step o (.new p) = some (afterNew o p) := by
  rw [ObjectPoolRun.step]
  exact if_pos hfresh

theorem next {o' : ObjectPoolRun.State sizeofType nPoolLen} {pBuf : ℕ} {i : ObjectPoolRun.Act}
    (h : (objectPoolRun sizeofType nPoolLen pBuf nodes).Reachable o)
    (hstep : ObjectPoolRun.step o i = some o') :
    (objectPoolRun sizeofType nPoolLen pBuf nodes).Reachable o' :=
  Machine.Reachable.next h hstep

theorem step_delete_eq (hx : x ∈ o.live) :
    ObjectPoolRun.step o (.delete x) = some (afterDelete o x) := by
  rw [ObjectPoolRun.step, if_pos hx]
  rfl

@[simp] theorem pBuf_afterNew : (afterNew o p).pool.pBuf = o.pool.pBuf :=
  ObjectPool.pBuf_allocObject _ _

@[simp] theorem pBuf_afterDelete : (afterDelete o x).pool.pBuf = o.pool.pBuf :=
  ObjectPool.pBuf_freeObjectMemory _

/-- An object without a slot has a block of its own, which is deleted with it. -/
theorem freeObjectMemory_eq (hlen : 1 ≤ nPoolLen)
    (hfits : nPoolLen * (sizeofType + sizeofNodeHeader) < 2 ^ 64) {pBuf : ℕ}
    (ho : (objectPoolRun sizeofType nPoolLen pBuf nodes).Reachable o) (hx : x ∈ o.live) :
    ObjectPoolRun.Inv o ∧ (o.pool.freeObjectMemory x.pMem).2.1 =
      (if x.exhausted then some x.block else none) := by
  have hinv : ObjectPoolRun.Inv o := ho.invariant (ObjectPoolRun.inv_init hlen hfits)
    fun _ _ _ hs hstep => (hs.next hlen hfits hstep).1
  obtain ⟨-, hfree, -⟩ := (hinv.next hlen hfits (step_delete_eq hx)).2
  exact ⟨hinv, congrArg Prod.fst hfree⟩

/-! ### Steps -/

variable {pMem : ℕ} {m : MemoryRun.State}

/-- An object takes a slot. -/
theorem new_slot (hsome : o.pool.pHeader.isNone = false) :
    ObjectPoolRun.step o (.new p) = some (afterNew o p) ∧ (afterNew o p).areas = o.areas := by
  refine ⟨step_new_eq fun hnone => ?_, ?_⟩
  · rw [hsome] at hnone
    exact absurd hnone Bool.false_ne_true
  · rw [afterNew, hsome]
    rfl

/-- An object takes a block of its own. -/
theorem new_exhausted (hnone : o.pool.pHeader.isNone = true)
    (hfresh : Area.Fresh o.areas (blockArea sizeofType p)) :
    ObjectPoolRun.step o (.new p) = some (afterNew o p) ∧
      (afterNew o p).areas = blockArea sizeofType p :: o.areas := by
  refine ⟨step_new_eq fun _ => hfresh, ?_⟩
  rw [afterNew, hnone]
  rfl

theorem Inv.init : Inv blocks nodes (pooledObjects sizeofType nPoolLen blocks nodes).init :=
  ⟨.init, fun _ hq => absurd hq List.not_mem_nil,
    fun o ho => absurd ho.symm (Option.some_ne_none o)⟩

/-- The rest of the program asks for memory. -/
theorem Inv.alloc (h : Inv blocks nodes s) {nSize : ℕ}
    (hsize : nSize + sizeofMemoryBlock < 2 ^ 64)
    (hnew : PooledObjects.globalNew s.memory nSize p = some (m, pMem)) :
    Inv blocks nodes { s with memory := m } := by
  obtain ⟨hreach, hmanages, hheld⟩ := h.globalNew hsize hnew
  refine ⟨hreach, hmanages.bound, fun o ho => ?_⟩
  obtain ⟨hpool, hareas⟩ := h.objects o ho
  exact ⟨hpool, fun q hq => (hheld o.areas hareas).2 q (List.mem_cons_of_mem _ hq)⟩

/-- A block is freed, and no area of the pool is in it. -/
theorem Inv.free (h : Inv blocks nodes s) {a : ℕ}
    (hstep : MemoryRun.step s.memory (.free a) = some m) {objects}
    (hobjects : ∀ o, objects = some o →
      (objectPoolRun sizeofType nPoolLen o.pool.pBuf nodes).Reachable o ∧
        ∀ q ∈ o.areas, Held s.memory q ∧ q.start ≠ a + sizeofMemoryBlock) :
    Inv blocks nodes ⟨m, objects⟩ := by
  refine ⟨h.memory.step (show Plain _ (.free a) from ⟨trivial, trivial⟩) hstep,
    bound_free h.bound hstep, fun o ho => ?_⟩
  obtain ⟨hpool, hareas⟩ := hobjects o ho
  exact ⟨hpool, fun q hq => (hareas q hq).1.free hstep (hareas q hq).2⟩

/-- The pool is made. -/
theorem Inv.make (h : Inv blocks nodes s)
    (hsize : ObjectPool.bufSize sizeofType nPoolLen + sizeofMemoryBlock < 2 ^ 64)
    (hnew : PooledObjects.globalNew s.memory (ObjectPool.bufSize sizeofType nPoolLen) p =
      some (m, pMem)) :
    Inv blocks nodes ⟨m, some (objectPoolRun sizeofType nPoolLen pMem nodes).init⟩ := by
  obtain ⟨hreach, hmanages, hheld⟩ := h.globalNew hsize hnew
  refine ⟨hreach, hmanages.bound, fun o ho => ?_⟩
  obtain rfl := Option.some.inj ho
  exact ⟨.init, (hheld [] fun q hq => absurd hq List.not_mem_nil).2⟩

/-- An object is made. -/
theorem Inv.new (h : Inv blocks nodes s) (ho : s.objects = some o)
    (hsize : sizeofType + sizeofNodeHeader + sizeofMemoryBlock < 2 ^ 64)
    (hstep : step nodes s (.new p) = some t) : Inv blocks nodes t := by
  obtain ⟨hpool, hareas⟩ := h.objects o ho
  simp only [step, ho, Option.bind_some] at hstep
  split_ifs at hstep with hnone
  · obtain ⟨⟨m, pMem⟩, hnew, rfl⟩ := Option.map_eq_some_iff.mp hstep
    obtain ⟨hreach, hmanages, hheld⟩ := h.globalNew hsize hnew
    obtain ⟨hfresh, hheld⟩ := hheld o.areas hareas
    obtain ⟨hobject, hareas'⟩ := new_exhausted hnone hfresh
    refine ⟨hreach, hmanages.bound, fun o' ho' => ?_⟩
    obtain rfl := Option.some.inj ho'
    rw [pBuf_afterNew, hareas']
    exact ⟨next hpool hobject, hheld⟩
  · obtain ⟨hobject, hareas'⟩ := new_slot (p := 0) (Bool.eq_false_iff.mpr hnone)
    obtain rfl := Option.some.inj hstep
    refine ⟨h.memory, h.bound, fun o' ho' => ?_⟩
    obtain rfl := Option.some.inj ho'
    rw [pBuf_afterNew, hareas']
    exact ⟨next hpool hobject, hareas⟩

/-- **Deleting an object** gives its block back if it has one of its own. -/
theorem step_delete_exhausted (ho : s.objects = some o) (hx : x ∈ o.live)
    (hfree : (o.pool.freeObjectMemory x.pMem).2.1 = some x.block) :
    step nodes s (.delete x) =
      (globalDelete s.memory x.block).map fun m => ⟨m, some (afterDelete o x)⟩ := by
  simp only [step, ho, Option.bind_some, if_pos hx, hfree]

theorem step_delete_slot (ho : s.objects = some o) (hx : x ∈ o.live)
    (hfree : (o.pool.freeObjectMemory x.pMem).2.1 = none) :
    step nodes s (.delete x) = some { s with objects := some (afterDelete o x) } := by
  simp only [step, ho, Option.bind_some, if_pos hx, hfree]

/-- The block of an object that has no slot is held, and can be freed. -/
theorem Inv.exists_globalDelete (h : Inv blocks nodes s) (ho : s.objects = some o)
    (hinv : ObjectPoolRun.Inv o) (hx : x ∈ o.live) (hex : x.exhausted = true) :
    ∃ a m, x.block = a + sizeofMemoryBlock ∧ MemoryRun.step s.memory (.free a) = some m ∧
      globalDelete s.memory x.block = some m := by
  have harea : blockArea sizeofType x.block ∈ o.areas :=
    (hinv.memory _).mpr (.inr ⟨x, hx, hex, rfl⟩)
  obtain ⟨a, r, hstart, hr, -, hle⟩ := (h.objects o ho).2 _ harea
  obtain ⟨m, hm⟩ := h.manages.exists_free hr hle
  refine ⟨a, m, hstart, hm, ?_⟩
  rw [globalDelete, show x.block = a + sizeofMemoryBlock from hstart, Nat.add_sub_cancel]
  exact hm

variable (hlen : 1 ≤ nPoolLen) (hfits : nPoolLen * (sizeofType + sizeofNodeHeader) < 2 ^ 64)
include hlen hfits

/-- An object that is live can be deleted. -/
theorem Inv.delete (h : Inv blocks nodes s) (ho : s.objects = some o) (hx : x ∈ o.live) :
    ∃ t, step nodes s (.delete x) = some t ∧ Inv blocks nodes t := by
  obtain ⟨hpool, hareas⟩ := h.objects o ho
  obtain ⟨hinv, hfree⟩ := freeObjectMemory_eq hlen hfits hpool hx
  have hnext := next hpool (step_delete_eq hx)
  cases hex : x.exhausted with
  | true =>
    rw [hex, if_pos rfl] at hfree
    obtain ⟨a, m, hblock, hm, hdelete⟩ := h.exists_globalDelete ho hinv hx hex
    refine ⟨_, by rw [step_delete_exhausted ho hx hfree, hdelete, Option.map_some],
      h.free hm fun o' ho' => ?_⟩
    obtain rfl := Option.some.inj ho'
    rw [pBuf_afterDelete]
    refine ⟨hnext, fun q hq => ?_⟩
    rw [afterDelete, hfree] at hq
    obtain ⟨hq, hstart⟩ := Area.mem_release.mp hq
    exact ⟨hareas q hq, hblock ▸ hstart⟩
  | false =>
    rw [hex, if_neg Bool.false_ne_true] at hfree
    refine ⟨_, step_delete_slot ho hx hfree, h.memory, h.bound, fun o' ho' => ?_⟩
    obtain rfl := Option.some.inj ho'
    rw [pBuf_afterDelete]
    refine ⟨hnext, fun q hq => hareas q ?_⟩
    rwa [afterDelete, hfree] at hq

/-- What each call keeps. -/
theorem Inv.next (h : Inv blocks nodes s)
    (hsize : ObjectPool.bufSize sizeofType nPoolLen + sizeofMemoryBlock < 2 ^ 64)
    (hsize' : sizeofType + sizeofNodeHeader + sizeofMemoryBlock < 2 ^ 64) {i : Act}
    (hi : Fits s i) (hstep : step nodes s i = some t) : Inv blocks nodes t := by
  cases i with
  | alloc nSize p =>
    obtain ⟨⟨m, pMem⟩, hnew, rfl⟩ := Option.map_eq_some_iff.mp hstep
    exact h.alloc hi hnew
  | free a =>
    rw [step, Option.ite_none_right_eq_some] at hstep
    obtain ⟨hforeign, hstep⟩ := hstep
    obtain ⟨m, hm, rfl⟩ := Option.map_eq_some_iff.mp hstep
    exact h.free hm fun o ho =>
      ⟨(h.objects o ho).1, fun q hq => ⟨(h.objects o ho).2 q hq, hforeign o ho q hq⟩⟩
  | make p =>
    rw [step, Option.ite_none_right_eq_some] at hstep
    obtain ⟨⟨m, pMem⟩, hnew, rfl⟩ := Option.map_eq_some_iff.mp hstep.2
    exact h.make hsize hnew
  | new p =>
    obtain ⟨o, ho, -⟩ := Option.bind_eq_some_iff.mp hstep
    exact h.new ho hsize' hstep
  | delete x =>
    obtain ⟨o, ho, hstep'⟩ := Option.bind_eq_some_iff.mp hstep
    rw [Option.ite_none_right_eq_some] at hstep'
    obtain ⟨t', ht', hinv⟩ := h.delete hlen hfits ho hstep'.1
    rwa [Option.some.inj (hstep.symm.trans ht')]

omit hlen hfits in
/-- If the buffer of the pool fits, so does everything else that it asks for. -/
theorem sizes_fit (hlen : 1 ≤ nPoolLen)
    (hsize : nPoolLen * (sizeofType + sizeofNodeHeader) + sizeofMemoryBlock < 2 ^ 64) :
    nPoolLen * (sizeofType + sizeofNodeHeader) < 2 ^ 64 ∧
      ObjectPool.bufSize sizeofType nPoolLen + sizeofMemoryBlock < 2 ^ 64 ∧
        sizeofType + sizeofNodeHeader + sizeofMemoryBlock < 2 ^ 64 := by
  have hfits : nPoolLen * (sizeofType + sizeofNodeHeader) < 2 ^ 64 :=
    (Nat.le_add_right _ _).trans_lt hsize
  have hone := Nat.mul_le_mul_right (sizeofType + sizeofNodeHeader) hlen
  rw [Nat.one_mul] at hone
  refine ⟨hfits, ?_, (Nat.add_le_add_right hone _).trans_lt hsize⟩
  rwa [ObjectPool.bufSize_eq hfits]

omit hlen hfits in
theorem inv_of_reach (hlen : 1 ≤ nPoolLen)
    (hsize : nPoolLen * (sizeofType + sizeofNodeHeader) + sizeofMemoryBlock < 2 ^ 64)
    (h : (pooledObjects sizeofType nPoolLen blocks nodes).ReachWithin Fits s) :
    Inv blocks nodes s := by
  obtain ⟨hfits, hbuffer, hone⟩ := sizes_fit hlen hsize
  exact h.invariant .init fun _ _ _ hs hi hstep => hs.next hlen hfits hbuffer hone hi hstep

end Invariant

/-! ## Runs -/

variable {sizeofType nPoolLen : ℕ} {blocks : Blocks} {nodes : ℕ → NodeHeader}
  {s : State sizeofType nPoolLen}

instance : (s : State sizeofType nPoolLen) → (i : Act) → Decidable (Fits s i)
  | _, .alloc nSize _ => inferInstanceAs (Decidable (nSize + sizeofMemoryBlock < 2 ^ 64))
  | _, .free _ | _, .make _ | _, .new _ | _, .delete _ => .isTrue trivial

/-- **Both laws hold in every run of the two together.**  The memory of the object pool is held
by blocks of the manager, which nobody else has, and every object can be deleted. -/
theorem pooledObjectsLaw (hlen : 1 ≤ nPoolLen)
    (hsize : nPoolLen * (sizeofType + sizeofNodeHeader) + sizeofMemoryBlock < 2 ^ 64)
    (h : (pooledObjects sizeofType nPoolLen blocks nodes).ReachWithin Fits s) :
    MemoryRun.Law MemoryMgr.unitSize MemoryMgr.blockLen s.memory ∧ MemoryRun.Serves s.memory ∧
      ∀ o, s.objects = some o → ObjectPoolRun.Law o ∧ (∀ q ∈ o.areas, Held s.memory q) ∧
        ∀ x ∈ o.live, ∃ t, step nodes s (.delete x) = some t := by
  have hinv := inv_of_reach hlen hsize h
  obtain ⟨hfits, -⟩ := sizes_fit hlen hsize
  have hadd : ∀ a r, s.memory.handed a = some r → r.addRefs = 0 :=
    hinv.memory.invariant (I := fun m => ∀ a r, m.handed a = some r → r.addRefs = 0)
      (fun a r hr => absurd hr.symm (Option.some_ne_none r))
      fun _ _ _ hm hi hstep => MemoryRun.addRefs_step hi.1 hstep hm
  refine ⟨hinv.manages.inv.law (MemoryRun.sized_of_reach hinv.memory) hadd, hinv.manages.serves,
    fun o ho => ?_⟩
  obtain ⟨hpool, hareas⟩ := hinv.objects o ho
  have hobjects : ObjectPoolRun.Inv o := hpool.invariant (ObjectPoolRun.inv_init hlen hfits)
    fun _ _ _ hs hstep => (hs.next hlen hfits hstep).1
  refine ⟨hobjects.law hfits, hareas, fun x hx => ?_⟩
  obtain ⟨t, ht, -⟩ := hinv.delete hlen hfits ho hx
  exact ⟨t, ht⟩

/-- A pool of one slot, and a second object that finds it taken. -/
theorem pooledObjectsLaw_exhausted : ∃ s o,
    (pooledObjects 200 1 MemoryRun.noBlocks fun _ => ⟨none, 0, 0, false⟩).ReachWithin Fits s ∧
      s.objects = some o ∧ o.live = [⟨5048, true⟩, ⟨1048, false⟩] ∧
      MemoryRun.Law MemoryMgr.unitSize MemoryMgr.blockLen s.memory ∧ MemoryRun.Serves s.memory ∧
        ObjectPoolRun.Law o ∧ (∀ q ∈ o.areas, Held s.memory q) ∧
          ∀ x ∈ o.live, ∃ t, step (fun _ => ⟨none, 0, 0, false⟩) s (.delete x) = some t := by
  obtain ⟨s, hs, hp⟩ := Machine.exists_reachWithin_of_run
    (M := pooledObjects 200 1 MemoryRun.noBlocks fun _ => ⟨none, 0, 0, false⟩) Fits
    [.make 1000, .new 3000, .new 5000]
    (fun s => s.objects.map (fun o => o.live) = some [⟨5048, true⟩, ⟨1048, false⟩])
    (by decide +kernel)
  obtain ⟨o, ho, hlive⟩ := Option.map_eq_some_iff.mp (of_decide_eq_true hp)
  obtain ⟨hlaw, hserves, hobjects⟩ := pooledObjectsLaw (le_refl 1) (by decide) hs
  exact ⟨s, o, hs, ho, hlive, hlaw, hserves, hobjects o ho⟩

end PooledObjects
end EasyTcpServer
