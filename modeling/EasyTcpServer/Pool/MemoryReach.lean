import EasyTcpServer.Pool.MemoryInv

/-!
# The invariant of the memory manager, when blocks are handed out

`allocMem` makes the buffer of a pool at the first request to it, and then hands out the first
block of the list, or memory from `malloc` when the list is empty or the request is large.

* `Inv.newBlock`, `Inv.take`, `Inv.init`: what it does, one by one.  `Initialised` says what
  `initMemory` leaves behind.
* `inv_step`, `inv_of_reach`: the invariant holds in all runs in which the sizes fit a `size_t`.
-/

namespace EasyTcpServer
namespace MemoryRun

open MemoryMgr (szAlloc)

variable {s t : State} {a : ℕ} {k : Pool} {r : Handed}

/-! ## Handing out -/

variable {p n : ℕ}

/-- A block of `malloc` is handed out. -/
theorem State.Inv.newBlock (h : s.Inv)
    (hfresh : Area.Fresh s.areas ⟨p, r.nSize + sizeofMemoryBlock⟩) (hmalloc : r.IsMalloc)
    (hadd : r.addRefs = 0) (hfree : r.frees = 0) : State.Inv { s with
      mgr := s.mgr.newBlock p (if r.origin = .fallback then 0 else 1)
      areas := ⟨p, r.nSize + sizeofMemoryBlock⟩ :: s.areas
      handed := Function.update s.handed p (some r)
      serial := n } := by
  obtain ⟨hno, -⟩ := h.of_fresh (Nat.add_pos_right _ (by decide)) hfresh
  refine h.of_pool_eq (a := p) (fun k => MemoryMgr.pool_newBlock) rfl
    (fun b hba => MemoryMgr.newBlock_blocks_of_ne hba)
    (fun b hba => Function.update_of_ne hba _ _) (fun q hq => .inl (List.mem_cons_of_mem _ hq))
    (Area.pairwise_cons h.apart hfresh) (fun k hk => absurd hk (hno k))
    (fun k hk => absurd hk (hno k)) fun r' hr' => ?_
  · dsimp only at hr'
    rw [Function.update_self, Option.some.injEq] at hr'
    rw [← hr']
    refine .inr ⟨hmalloc, List.mem_cons_self, ?_, ?_, fun _ => by rw [hfree]; exact Nat.zero_le _⟩
    · rw [MemoryMgr.newBlock_blocks]
    · rw [MemoryMgr.newBlock_blocks, hadd, hfree]
      simp

/-- The first block of a list is handed out. -/
theorem State.Inv.take (h : s.Inv) (hheader : (s.mgr.pool k).pHeader = some a)
    (horigin : r.origin = .pool k) (hserves : szAlloc r.nSize = some k) (hadd : r.addRefs = 0)
    (hfree : r.frees = 0) : State.Inv { s with
      mgr := s.mgr.take k a
      handed := Function.update s.handed a (some r)
      serial := n } := by
  obtain ⟨l, hlinked, hl⟩ := h.chained k
  rw [hheader] at hlinked
  obtain ⟨l', rfl, hrest⟩ := hlinked.pop
  obtain ⟨hblock, hnone⟩ := (hl a).mp List.mem_cons_self
  have hnot : a ∉ l' := (List.nodup_cons.mp hlinked.nodup).1
  have hok := h.block k a hblock
  have hbuffer : SameBuffer (s.mgr.pool k) ((s.mgr.take k a).pool k) := by
    rw [MemoryMgr.pool_take]
    exact ⟨rfl, rfl, rfl⟩
  refine h.of_front hblock hbuffer (fun k' hkk => MemoryMgr.pool_take_of_ne hkk) rfl rfl
    (fun b hba => MemoryMgr.take_blocks_of_ne hba) (fun b hba => Function.update_of_ne hba _ _)
    ?_ ?_ fun r' hr' => ?_
  · refine ⟨l', ?_, ?_⟩
    · dsimp only
      rw [MemoryMgr.pool_take]
      refine hrest.congr fun b hb => congrArg MemoryBlock.pNext (MemoryMgr.take_blocks_of_ne ?_)
      rintro rfl
      exact hnot hb
    · intro b
      refine Iff.trans ?_ (and_congr_left' (isBlock_congr hbuffer).symm)
      have hb := hl b
      rw [List.mem_cons] at hb
      by_cases hba : b = a
      · subst hba
        simp [hnot]
      · simpa [hba] using hb
  · refine ⟨?_, ?_, ?_, ?_⟩
    · rw [MemoryMgr.take_blocks]
      exact hok.bPool
    · rw [MemoryMgr.take_blocks]
      exact hok.pAlloc
    · simp [refs, hadd, hfree]
    · intro r' hr'
      dsimp only at hr'
      rw [Function.update_self, Option.some.injEq] at hr'
      rw [← hr']
      exact ⟨horigin, by rw [hfree]; exact Nat.zero_le _, hserves⟩
  · dsimp only at hr'
    rw [Function.update_self, Option.some.injEq] at hr'
    rw [← hr']
    exact .inl ⟨k, horigin, (isBlock_congr hbuffer).mpr hblock⟩

/-! ## Making the blocks -/

/-- `initMemory` has run for pool `k`: its blocks are in the area that starts at `p`, one
linked to the next, and nothing else has changed. -/
structure Initialised (s t : State) (k : Pool) (p : ℕ) : Prop where
  unset : (s.mgr.pool k).pBuf = none
  fresh : Area.Fresh s.areas ⟨p, (s.mgr.pool k).bufSize⟩
  pool : t.mgr.pool k = { s.mgr.pool k with pBuf := some p, pHeader := some p }
  pool_of_ne : ∀ k', k' ≠ k → t.mgr.pool k' = s.mgr.pool k'
  slots : ∀ i < (s.mgr.pool k).nBlockLen,
    t.mgr.blocks (MemoryAlloc.blockAt (s.mgr.pool k).nSize p i) = ⟨i, 0, some k,
      if i + 1 < (s.mgr.pool k).nBlockLen then
        some (MemoryAlloc.blockAt (s.mgr.pool k).nSize p (i + 1)) else none, true⟩
  others : ∀ a, (∀ i < (s.mgr.pool k).nBlockLen,
    a ≠ MemoryAlloc.blockAt (s.mgr.pool k).nSize p i) → t.mgr.blocks a = s.mgr.blocks a
  areas : t.areas = ⟨p, (s.mgr.pool k).bufSize⟩ :: s.areas
  handed : t.handed = s.handed
  inits : ∀ k', t.inits k' = s.inits k' + if k' = k then 1 else 0

namespace Initialised

variable {k' : Pool} {b i : ℕ}

/-- The new blocks are apart from all memory in use. -/
theorem ne_blockAt (hnew : Initialised s t k p) (h : s.Inv) {q : Area} (hq : q ∈ s.areas) {m : ℕ}
    (hm : 0 < m) (hb : (Area.mk b m).Within q) (hi : i < (s.mgr.pool k).nBlockLen) :
    b ≠ MemoryAlloc.blockAt (s.mgr.pool k).nSize p i := by
  have hwithin := Area.slot_within p ((s.mgr.pool k).nSize + sizeofMemoryBlock) hi
  rw [← h.bufSize_eq] at hwithin
  have hapart := (hnew.fresh.2.2 q hq).of_within hwithin hb
  exact (hapart.start_ne (Nat.add_pos_right _ (by decide)) hm).symm

theorem block_ne (hnew : Initialised s t k p) (h : s.Inv) (hb : s.IsBlock k' b)
    (hi : i < (s.mgr.pool k).nBlockLen) :
    b ≠ MemoryAlloc.blockAt (s.mgr.pool k).nSize p i := by
  obtain ⟨q, hq, hwithin⟩ := hb.within h
  exact hnew.ne_blockAt h (h.buffer k' q hq) (Nat.add_pos_right _ (by decide)) hwithin hi

theorem malloc_ne (hnew : Initialised s t k p) (h : s.Inv) (hok : MallocOk s b r)
    (hi : i < (s.mgr.pool k).nBlockLen) :
    b ≠ MemoryAlloc.blockAt (s.mgr.pool k).nSize p i :=
  hnew.ne_blockAt h hok.area (Nat.add_pos_right _ (by decide)) (Area.Within.refl _) hi

/-- Nobody holds a block that has just been made. -/
theorem handed_eq_none (hnew : Initialised s t k p) (h : s.Inv)
    (hi : i < (s.mgr.pool k).nBlockLen) :
    t.handed (MemoryAlloc.blockAt (s.mgr.pool k).nSize p i) = none := by
  rw [hnew.handed]
  cases hr : s.handed (MemoryAlloc.blockAt (s.mgr.pool k).nSize p i) with
  | none => rfl
  | some r =>
    rcases h.handed _ r hr with ⟨k', -, hb⟩ | ⟨-, hok⟩
    · exact absurd rfl (hnew.block_ne h hb hi)
    · exact absurd rfl (hnew.malloc_ne h hok hi)

theorem isBlock_iff (hnew : Initialised s t k p) : t.IsBlock k b ↔
    ∃ i < (s.mgr.pool k).nBlockLen, b = MemoryAlloc.blockAt (s.mgr.pool k).nSize p i := by
  unfold State.IsBlock
  rw [hnew.pool]
  constructor
  · rintro ⟨q, i, hq, hi, rfl⟩
    cases hq
    exact ⟨i, hi, rfl⟩
  · rintro ⟨i, hi, rfl⟩
    exact ⟨p, i, rfl, hi, rfl⟩

theorem isBlock_of_ne (hnew : Initialised s t k p) (hkk : k' ≠ k) :
    t.IsBlock k' b ↔ s.IsBlock k' b := by
  unfold State.IsBlock
  rw [hnew.pool_of_ne k' hkk]

/-- A block that was there is in another pool. -/
theorem ne_of_isBlock (hnew : Initialised s t k p) (hb : s.IsBlock k' b) : k' ≠ k := by
  rintro rfl
  obtain ⟨q, n, hq, -⟩ := hb
  rw [hnew.unset] at hq
  cases hq

/-- The list of the pool goes through its blocks in their order in memory. -/
theorem chained (hnew : Initialised s t k p) (h : s.Inv) : Chained t k := by
  have hlen := h.len k
  have hlinked : Linked t.next (some (MemoryAlloc.blockAt (s.mgr.pool k).nSize p 0))
      ((List.range ((s.mgr.pool k).nBlockLen - 1 + 1)).map
        (MemoryAlloc.blockAt (s.mgr.pool k).nSize p)) := linked_range
    (fun i hi => by rw [State.next, hnew.slots i (by omega), if_pos (by omega)])
    (by rw [State.next, hnew.slots _ (by omega), if_neg (by omega)])
  rw [MemoryAlloc.blockAt_zero, Nat.sub_add_cancel hlen] at hlinked
  refine ⟨_, by rw [hnew.pool]; exact hlinked, fun b => ?_⟩
  rw [hnew.isBlock_iff, List.mem_map]
  constructor
  · rintro ⟨i, hi, rfl⟩
    exact ⟨⟨i, List.mem_range.mp hi, rfl⟩, hnew.handed_eq_none h (List.mem_range.mp hi)⟩
  · rintro ⟨⟨i, hi, rfl⟩, -⟩
    exact ⟨i, List.mem_range.mpr hi, rfl⟩

/-- The list of another pool is what it was. -/
theorem chained_of_ne (hnew : Initialised s t k p) (h : s.Inv) (hkk : k' ≠ k) :
    Chained t k' := by
  obtain ⟨l, hlinked, hl⟩ := h.chained k'
  refine ⟨l, ?_, fun b => ?_⟩
  · rw [hnew.pool_of_ne k' hkk]
    refine hlinked.congr fun b hb => ?_
    rw [State.next, State.next, hnew.others b fun i hi => hnew.block_ne h ((hl b).mp hb).1 hi]
  · rw [hnew.isBlock_of_ne hkk, hnew.handed]
    exact hl b

theorem blockOk (hnew : Initialised s t k p) (h : s.Inv) (hb : t.IsBlock k' b) :
    BlockOk t k' b := by
  by_cases hkk : k' = k
  · subst hkk
    obtain ⟨i, hi, rfl⟩ := hnew.isBlock_iff.mp hb
    have hnone := hnew.handed_eq_none h hi
    refine ⟨?_, ?_, ?_, fun r hr => ?_⟩
    · rw [hnew.slots i hi]
    · rw [hnew.slots i hi]
    · rw [hnew.slots i hi, hnone]
      rfl
    · rw [hnone] at hr
      cases hr
  · have hb' := (hnew.isBlock_of_ne hkk).mp hb
    exact (h.block k' b hb').congr (hnew.others b fun i hi => hnew.block_ne h hb' hi)
      (congrFun hnew.handed b)

theorem handedOk (hnew : Initialised s t k p) (h : s.Inv) (hr : t.handed b = some r) :
    HandedOk t b r := by
  rw [hnew.handed] at hr
  rcases h.handed b r hr with ⟨k', hk', hb⟩ | ⟨hmalloc, hok⟩
  · exact .inl ⟨k', hk', (hnew.isBlock_of_ne (hnew.ne_of_isBlock hb)).mpr hb⟩
  · have hsame := hnew.others b fun i hi => hnew.malloc_ne h hok hi
    refine .inr ⟨hmalloc, ?_, ?_, ?_, hok.large⟩
    · rw [hnew.areas]
      exact List.mem_cons_of_mem _ hok.area
    · rw [hsame]
      exact hok.bPool
    · rw [hsame]
      exact hok.nRef

end Initialised

/-- `initMemory` keeps the invariant. -/
theorem State.Inv.init (h : s.Inv) (hnew : Initialised s t k p) : t.Inv := by
  refine ⟨fun k' => ?_, fun k' => ?_, fun k' hk' => ?_, fun k' => ?_, fun k' q hq => ?_,
    fun k' => ?_, fun k' b hb => hnew.blockOk h hb, fun b r hr => hnew.handedOk h hr, ?_⟩
  · by_cases hkk : k' = k
    · rw [hkk, hnew.pool]
      exact h.len k
    · rw [hnew.pool_of_ne k' hkk]
      exact h.len k'
  · by_cases hkk : k' = k
    · rw [hkk, hnew.pool]
      exact h.fits k
    · rw [hnew.pool_of_ne k' hkk]
      exact h.fits k'
  · by_cases hkk : k' = k
    · rw [hkk, hnew.pool] at hk'
      cases hk'
    · rw [hnew.pool_of_ne k' hkk] at hk' ⊢
      exact h.header k' hk'
  · rw [hnew.inits, h.inits]
    by_cases hkk : k' = k
    · rw [hkk, hnew.pool, hnew.unset]
      simp
    · rw [hnew.pool_of_ne k' hkk, if_neg hkk, Nat.add_zero]
  · rw [hnew.areas]
    by_cases hkk : k' = k
    · subst hkk
      rw [hnew.pool] at hq ⊢
      cases hq
      exact List.mem_cons_self
    · rw [hnew.pool_of_ne k' hkk] at hq ⊢
      exact List.mem_cons_of_mem _ (h.buffer k' q hq)
  · by_cases hkk : k' = k
    · rw [hkk]
      exact hnew.chained h
    · exact hnew.chained_of_ne h hkk
  · rw [hnew.areas]
    exact Area.pairwise_cons h.apart hnew.fresh

/-! ## A request -/

theorem asked_of_origin {g : MemoryMgr} {nSize : ℕ} (h : ∀ k, g.origin nSize ≠ .pool k) :
    g.asked nSize = some (addSizeT nSize sizeofMemoryBlock) := by
  unfold MemoryMgr.asked
  cases ho : g.origin nSize with
  | pool k => exact absurd ho (h k)
  | fallback => rfl
  | large => rfl

theorem origin_large {g : MemoryMgr} {nSize : ℕ} (h : szAlloc nSize = none) :
    g.origin nSize = .large := by
  rw [MemoryMgr.origin, h]

theorem origin_fallback {g : MemoryMgr} {nSize : ℕ} (h : szAlloc nSize = some k)
    (hbuf : (g.pool k).pBuf.isSome) (hheader : (g.pool k).pHeader = none) :
    g.origin nSize = .fallback := by
  rw [MemoryMgr.origin, h]
  dsimp only
  rw [if_pos ⟨hbuf, hheader⟩]

theorem origin_pool {g : MemoryMgr} {nSize : ℕ} (h : szAlloc nSize = some k)
    (hpool : (g.pool k).pBuf = none ∨ (g.pool k).pHeader ≠ none) :
    g.origin nSize = .pool k := by
  rw [MemoryMgr.origin, h]
  dsimp only
  rw [if_neg]
  rintro ⟨hbuf, hheader⟩
  rcases hpool with hnone | hne
  · rw [hnone] at hbuf
    cases hbuf
  · exact hne hheader

theorem asked_pool {g : MemoryMgr} {nSize : ℕ} (h : g.origin nSize = .pool k) :
    g.asked nSize = if (g.pool k).pBuf.isNone then some (g.pool k).bufSize else none := by
  rw [MemoryMgr.asked, h]

/-- A request for which `malloc` is called. -/
theorem State.Inv.alloc_malloc (h : s.Inv) {nSize p : ℕ}
    (hsize : nSize + sizeofMemoryBlock < 2 ^ 64) {nRef : ℤ}
    (horigin : ∀ k, s.mgr.origin nSize ≠ .pool k)
    (hnRef : nRef = if s.mgr.origin nSize = .fallback then 0 else 1)
    (hfresh : ∀ n, s.mgr.asked nSize = some n → Area.Fresh s.areas ⟨p, n⟩) :
    (s.afterAlloc nSize p (s.mgr.newBlock p nRef) (p + sizeofMemoryBlock)).Inv := by
  have hasked := asked_of_origin horigin
  rw [addSizeT, Nat.mod_eq_of_lt hsize] at hasked
  have hinv := h.newBlock (n := s.serial + 1) (r := ⟨s.serial, nSize, s.mgr.origin nSize, 0, 0⟩)
    (hfresh _ hasked) horigin rfl rfl
  have heq : s.afterAlloc nSize p (s.mgr.newBlock p nRef) (p + sizeofMemoryBlock) = { s with
      mgr := s.mgr.newBlock p (if s.mgr.origin nSize = .fallback then 0 else 1)
      areas := ⟨p, nSize + sizeofMemoryBlock⟩ :: s.areas
      handed := Function.update s.handed p
        (some ⟨s.serial, nSize, s.mgr.origin nSize, 0, 0⟩)
      serial := s.serial + 1 } := by
    simp [State.afterAlloc, hasked, hnRef, horigin]
  rw [heq]
  exact hinv

/-- A call of `allocMem`. -/
theorem State.Inv.alloc (h : s.Inv) {nSize p : ℕ} (hsize : nSize + sizeofMemoryBlock < 2 ^ 64)
    (hstep : step s (.alloc nSize p) = some t) : t.Inv := by
  obtain ⟨g, pMem, hg, hfresh, rfl⟩ := step_alloc hstep
  cases hk : szAlloc nSize with
  | none =>
    have horigin := origin_large (g := s.mgr) hk
    rw [MemoryMgr.allocMem_large hk] at hg
    cases hg
    exact h.alloc_malloc hsize (by rw [horigin]; exact nofun) (by rw [horigin]; rfl) hfresh
  | some k =>
    cases hbuf : (s.mgr.pool k).pBuf with
    | none =>
      have horigin := origin_pool (g := s.mgr) hk (.inl hbuf)
      have hasked : s.mgr.asked nSize = some (s.mgr.pool k).bufSize := by
        rw [asked_pool horigin, hbuf]
        rfl
      obtain ⟨blocks, hinit, hslots, hothers⟩ := MemoryAlloc.initMemory_blocks k
        s.mgr.blocks (fun _ => some p) hbuf (h.len k) rfl
      rw [MemoryMgr.allocMem_init hk hbuf hinit rfl] at hg
      have hinv := h.init (t := { s with
          mgr := s.mgr.put { s.mgr.pool k with pBuf := some p, pHeader := some p } blocks k
          areas := ⟨p, (s.mgr.pool k).bufSize⟩ :: s.areas
          inits := fun k' => s.inits k' + if k' = k then 1 else 0 })
        ⟨hbuf, hfresh _ hasked, MemoryMgr.pool_put .., fun _ => MemoryMgr.pool_put_of_ne _ _,
          by rwa [MemoryMgr.put_blocks], by rwa [MemoryMgr.put_blocks], rfl, rfl, fun _ => rfl⟩
      have hheader : ((s.mgr.put { s.mgr.pool k with pBuf := some p, pHeader := some p }
          blocks k).pool k).pHeader = some p := by rw [MemoryMgr.pool_put]
      rw [MemoryMgr.allocMem_front hk (by rw [MemoryMgr.pool_put]; rfl) hheader] at hg
      cases hg
      have hinv' := hinv.take (n := s.serial + 1)
        (r := ⟨s.serial, nSize, s.mgr.origin nSize, 0, 0⟩) hheader horigin hk rfl rfl
      have hinits (k' : Pool) : (k = k' ∧ (s.mgr.pool k').pBuf = none) ↔ k' = k :=
        ⟨fun h => h.1.symm, fun h => ⟨h.symm, h ▸ hbuf⟩⟩
      simpa only [State.afterAlloc, hasked, horigin, Origin.pool.injEq, hinits, Option.map_some,
        Option.toList_some, List.singleton_append, Nat.add_sub_cancel] using hinv'
    | some q =>
      have hsome : (s.mgr.pool k).pBuf.isSome := by rw [hbuf]; rfl
      cases hheader : (s.mgr.pool k).pHeader with
      | none =>
        have horigin := origin_fallback hk hsome hheader
        rw [MemoryMgr.allocMem_fallback hk hsome hheader] at hg
        cases hg
        exact h.alloc_malloc hsize (by rw [horigin]; exact nofun) (by rw [horigin]; rfl) hfresh
      | some a =>
        have horigin := origin_pool (g := s.mgr) hk (.inr (by rw [hheader]; exact nofun))
        have hasked : s.mgr.asked nSize = none := by
          rw [asked_pool horigin, hbuf]
          rfl
        rw [MemoryMgr.allocMem_front hk hsome hheader] at hg
        cases hg
        have hinv := h.take (n := s.serial + 1)
          (r := ⟨s.serial, nSize, s.mgr.origin nSize, 0, 0⟩) hheader horigin hk rfl rfl
        have hinits (k' : Pool) : ¬ (k = k' ∧ (s.mgr.pool k').pBuf = none) := by
          rintro ⟨rfl, hnone⟩
          rw [hbuf] at hnone
          cases hnone
        simpa only [State.afterAlloc, hasked, horigin, Origin.pool.injEq, hinits, if_false,
          Nat.add_zero, Option.map_none, Option.toList_none, List.nil_append,
          Nat.add_sub_cancel] using hinv

/-! ## Runs -/

/-- The size of a request, with its header, fits a `size_t`. -/
def Fits : Act → Prop
  | .alloc nSize _ => nSize + sizeofMemoryBlock < 2 ^ 64
  | _ => True

instance (i : Act) : Decidable (Fits i) := by
  unfold Fits
  cases i <;> infer_instance

/-- The size of a buffer fits a `size_t`. -/
def BuffersFit (nSize nBlockLen : Pool → ℕ) : Prop :=
  ∀ k, ((MemoryAlloc.new (nSize k) (nBlockLen k)).nSize + sizeofMemoryBlock) * nBlockLen k <
    2 ^ 64

/-- Every call keeps the invariant. -/
theorem inv_step {i : Act} (h : s.Inv) (hfits : Fits i) (hstep : step s i = some t) : t.Inv := by
  cases i with
  | alloc nSize p => exact h.alloc hfits hstep
  | addRef a => exact h.addRef hstep
  | free a => exact h.free hstep

variable {nSize nBlockLen : Pool → ℕ} {blocks : Blocks}

theorem pool_ofSizes (k : Pool) : (MemoryMgr.ofSizes nSize nBlockLen blocks).pool k =
    .new (nSize k) (nBlockLen k) := by
  cases k <;> rfl

theorem inv_init (hlen : ∀ k, 1 ≤ nBlockLen k) (hfits : BuffersFit nSize nBlockLen) :
    (memoryRun nSize nBlockLen blocks).init.Inv := by
  have hpool (k : Pool) : (memoryRun nSize nBlockLen blocks).init.mgr.pool k =
      .new (nSize k) (nBlockLen k) := pool_ofSizes k
  refine ⟨?_, ?_, ?_, ?_, ?_, fun k => ⟨[], ?_, ?_⟩, ?_, fun a r hr => (by cases hr), .nil⟩
  · intro k
    rw [hpool]
    exact hlen k
  · intro k
    rw [hpool]
    exact hfits k
  · intro k _
    rw [hpool]
    rfl
  · intro k
    rw [hpool]
    rfl
  · intro k p hp
    rw [hpool] at hp
    cases hp
  · rw [hpool]
    rfl
  · intro a
    refine iff_of_false List.not_mem_nil ?_
    rintro ⟨⟨p, n, hp, -⟩, -⟩
    rw [hpool] at hp
    cases hp
  · intro k a ha
    obtain ⟨p, n, hp, -⟩ := ha
    rw [hpool] at hp
    cases hp

/-- **The invariant holds in every run** in which the sizes fit a `size_t`. -/
theorem inv_of_reach (hlen : ∀ k, 1 ≤ nBlockLen k) (hfits : BuffersFit nSize nBlockLen)
    {ok : State → Act → Prop} (hok : ∀ s i, ok s i → Fits i)
    (h : (memoryRun nSize nBlockLen blocks).ReachWithin ok s) : s.Inv :=
  h.invariant (inv_init hlen hfits) fun s i _ hs hi hstep => inv_step hs (hok s i hi) hstep

end MemoryRun
end EasyTcpServer
