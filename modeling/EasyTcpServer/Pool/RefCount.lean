import EasyTcpServer.Pool.PoolLaw

/-!
# Reference counts

A block is given back by the call of `freeMem` behind which there were as many of them as there
were references: the one from `allocMem`, and one from each `addRef`.  Two of the three paths of
`allocMem` count the reference they hand out.  The one to `malloc` when the list of the pool is
empty starts at zero: such a block is given back one call too early if there was an `addRef`,
and never if there was none.

* `refCount_iff`: a request gets a block of which the law holds iff its origin is not that path.
* `exists_exhausted`: the list of a pool gets empty.
* `refCount_fails`: the path is taken behind a million requests.
-/

namespace EasyTcpServer
namespace MemoryRun

open MemoryMgr (szAlloc)

variable {nSize nBlockLen : Pool → ℕ} {blocks : Blocks} {s t u : State} {a n p : ℕ} {k : Pool}
  {r : Handed}

/-! ## Which request a block is handed out for -/

/-- The requests are numbered, and blocks keep their numbers. -/
structure Numbered (s : State) (serial : ℕ) (o : Origin) : Prop where
  lt : serial < s.serial
  origin : ∀ a r, s.handed a = some r → r.serial = serial → r.origin = o

theorem Numbered.next {serial : ℕ} {o : Origin} {i : Act} (h : Numbered s serial o)
    (hstep : step s i = some t) : Numbered t serial o := by
  refine ⟨h.lt.trans_le (serial_le hstep), fun a r hr hserial => ?_⟩
  rcases handed_step hstep hr with ⟨r', hr', hnum, horigin, -⟩ | ⟨n, p, -, rfl⟩
  · exact horigin.trans (h.origin a r' hr' (hnum.symm.trans hserial))
  · exact absurd hserial h.lt.ne'

theorem Numbered.run {serial : ℕ} {o : Origin} {is : List Act} (h : Numbered s serial o)
    (hrun : (memoryRun nSize nBlockLen blocks).run s is = some t) : Numbered t serial o :=
  Machine.run_invariant (I := fun u => Numbered u serial o) (P := fun _ => True)
    (fun _ _ _ _ hs hstep => hs.next hstep) (fun _ _ => trivial) h hrun

/-- The numbers of blocks are smaller than that of the next request. -/
def SerialLt (s : State) : Prop := ∀ a r, s.handed a = some r → r.serial < s.serial

theorem SerialLt.next {i : Act} (h : SerialLt s) (hstep : step s i = some t) : SerialLt t := by
  intro a r hr
  rcases handed_step hstep hr with ⟨r', hr', hnum, -, -⟩ | ⟨n, p, rfl, rfl⟩
  · rw [hnum]
    exact (h a r' hr').trans_le (serial_le hstep)
  · rw [serial_alloc hstep]
    exact Nat.lt_succ_self _

theorem serialLt_of_reach {ok : State → Act → Prop}
    (h : (memoryRun nSize nBlockLen blocks).ReachWithin ok s) : SerialLt s :=
  h.invariant (fun a r hr => absurd hr (by simp [memoryRun]))
    fun _ _ _ hs _ hstep => hs.next hstep

/-- The block of a request keeps its number and its origin. -/
theorem SerialLt.numbered (h : SerialLt s) (hstep : step s (.alloc n p) = some t) :
    Numbered t s.serial (s.mgr.origin n) := by
  refine ⟨by rw [serial_alloc hstep]; exact Nat.lt_succ_self _, fun a r hr hserial => ?_⟩
  rcases handed_step hstep hr with ⟨r', hr', hnum, -, -⟩ | ⟨n', p', heq, rfl⟩
  · exact absurd (hnum.symm.trans hserial) (h a r' hr').ne
  · cases heq
    rfl

/-! ## The law -/

/-- A call of `freeMem` on the block gives it back iff it is the one that makes the calls as many
as there were references. -/
def GivenBackInTime (s : State) (a : ℕ) (r : Handed) : Prop :=
  ∃ g freed z, s.mgr.freeMem (some (a + sizeofMemoryBlock)) = some (g, freed, z) ∧
    (s.mgr.GivenBack g freed a r.origin ↔ r.frees + 1 = 1 + r.addRefs)

/-- From `s` on, this holds of the block of the request of this number, whatever is called. -/
def RefCountLaw (s : State) (serial : ℕ) : Prop :=
  ∀ (is : List Act) (t : State), (∀ i ∈ is, Fits i) →
    (memoryRun MemoryMgr.unitSize MemoryMgr.blockLen noBlocks).run s is = some t →
    ∀ a r, t.handed a = some r → r.serial = serial → GivenBackInTime t a r

/-- The blocks of the pools, and those of large requests, are given back in time. -/
theorem State.Inv.givenBackInTime (h : s.Inv) (hr : s.handed a = some r)
    (horigin : r.origin ≠ .fallback) : GivenBackInTime s a r := by
  rcases h.handed a r hr with ⟨k, hk, -⟩ | ⟨hmalloc, hok⟩
  · obtain ⟨hblock, hnRef, hle⟩ := h.nRef_pool hr hk
    have hpool := h.block k a hblock
    by_cases heq : r.frees = r.addRefs
    · refine ⟨_, _, _, MemoryMgr.freeMem_back hpool.bPool hpool.pAlloc (by omega),
        iff_of_true ?_ (by omega)⟩
      rw [hk]
      exact ⟨h.header_ne hr k, by rw [MemoryMgr.pool_push]⟩
    · refine ⟨_, _, _, MemoryMgr.freeMem_kept hpool.bPool hpool.pAlloc (by omega),
        iff_of_false ?_ (by omega)⟩
      rw [hk]
      rintro ⟨hne, hheader⟩
      rw [MemoryMgr.pool_setRef] at hheader
      exact hne hheader
  · have hnRef := hok.nRef
    rw [if_neg horigin] at hnRef
    have hback (g g' : MemoryMgr) (freed : Option ℕ) :
        g.GivenBack g' freed a r.origin ↔ freed = some a := by
      cases ho : r.origin with
      | pool k => exact absurd ho (hmalloc k)
      | fallback => exact Iff.rfl
      | large => exact Iff.rfl
    refine ⟨_, _, _, MemoryMgr.freeMem_malloc hok.bPool, ?_⟩
    rw [hback, Option.ite_none_right_eq_some]
    constructor
    · rintro ⟨hzero, -⟩
      omega
    · intro heq
      exact ⟨by omega, rfl⟩

/-- A block from `malloc` that was handed out because the list was empty is not given back by
the first call of `freeMem`. -/
theorem State.Inv.not_givenBackInTime (h : s.Inv) (hr : s.handed a = some r)
    (horigin : r.origin = .fallback) (hadd : r.addRefs = 0) (hfree : r.frees = 0) :
    ¬ GivenBackInTime s a r := by
  rintro ⟨g, freed, z, hg, hiff⟩
  have hok := h.mallocOk hr fun k hk => by rw [horigin] at hk; cases hk
  have hnRef := hok.nRef
  rw [if_pos horigin, hadd, hfree] at hnRef
  have hback := hiff.mpr (by rw [hadd, hfree])
  rw [horigin] at hback
  rw [MemoryMgr.freeMem_malloc hok.bPool, hnRef] at hg
  cases hg
  cases hback

theorem State.Inv.run (h : s.Inv) {is : List Act} (his : ∀ i ∈ is, Fits i)
    (hrun : (memoryRun nSize nBlockLen blocks).run s is = some t) : t.Inv :=
  Machine.run_invariant (I := State.Inv) (P := Fits)
    (fun _ _ _ hfits hs hstep => inv_step hs hfits hstep) his h hrun

/-- The path on which the reference is not counted. -/
theorem origin_eq_fallback_iff {g : MemoryMgr} : g.origin n = .fallback ↔
    ∃ k, szAlloc n = some k ∧ (g.pool k).pBuf.isSome ∧ (g.pool k).pHeader = none := by
  unfold MemoryMgr.origin
  cases hk : szAlloc n with
  | none => simp
  | some k =>
    dsimp only
    split_ifs with hempty
    · exact iff_of_true rfl ⟨k, rfl, hempty⟩
    · refine iff_of_false nofun ?_
      rintro ⟨k', hk', hempty'⟩
      cases hk'
      exact hempty hempty'

/-- What a request is handed out. -/
theorem exists_handed (hstep : step s (.alloc n p) = some t) :
    ∃ a, t.handed a = some ⟨s.serial, n, s.mgr.origin n, 0, 0⟩ := by
  obtain ⟨g, pMem, -, -, rfl⟩ := step_alloc hstep
  exact ⟨pMem - sizeofMemoryBlock, by rw [handed_afterAlloc, Function.update_self]⟩

/-- The first call of `freeMem` breaks the law for a block that is handed out because the list
was empty. -/
theorem State.Inv.not_refCountLaw (h : t.Inv) (hstep : step s (.alloc n p) = some t)
    (horigin : s.mgr.origin n = .fallback) : ¬ RefCountLaw t s.serial := by
  intro hlaw
  obtain ⟨a, hr⟩ := exists_handed hstep
  exact h.not_givenBackInTime hr horigin rfl rfl
    (hlaw [] t (fun i hi => absurd hi List.not_mem_nil) rfl a _ hr rfl)

/-- The pools of the manager have blocks, and their buffers fit. -/
theorem inv_of_reach_new
    (h : (memoryRun MemoryMgr.unitSize MemoryMgr.blockLen blocks).ReachWithin
      (fun _ i => Fits i) s) : s.Inv :=
  inv_of_reach (fun k => by cases k <;> decide) (fun k => by cases k <;> decide)
    (fun _ _ hi => hi) h

/-- **When the law of the reference counts holds.**  The block of a request is given back in
time iff the list of the pool that serves the request is not empty, or there is no such pool or
it has no buffer yet.  A count stays within an `int`: an `addRef` past `INT_MAX` has no result. -/
theorem refCount_iff
    (h : (memoryRun MemoryMgr.unitSize MemoryMgr.blockLen blocks).ReachWithin
      (fun _ i => Fits i) s)
    (hn : Fits (.alloc n p)) (hstep : step s (.alloc n p) = some t) :
    RefCountLaw t s.serial ↔ ∀ k, szAlloc n = some k → (s.mgr.pool k).pBuf.isSome →
      (s.mgr.pool k).pHeader ≠ none := by
  have hinv := inv_of_reach_new (h.step hn hstep)
  constructor
  · intro hlaw k hk hbuf hheader
    exact hinv.not_refCountLaw hstep (origin_fallback hk hbuf hheader) hlaw
  · intro hne is u his hrun a r hr hserial
    have horigin := (((serialLt_of_reach h).numbered hstep).run hrun).origin a r hr hserial
    refine (hinv.run his hrun).givenBackInTime hr fun hfallback => ?_
    obtain ⟨k, hk, hbuf, hheader⟩ := origin_eq_fallback_iff.mp (horigin.symm.trans hfallback)
    exact hne k hk hbuf hheader

/-- The block of the first request is given back in time. -/
theorem refCount_first : ∃ t : State,
    step (memoryRun MemoryMgr.unitSize MemoryMgr.blockLen noBlocks).init (.alloc 200 1000) =
      some t ∧ RefCountLaw t 0 := by
  obtain ⟨t, ht⟩ : ∃ t, step (memoryRun MemoryMgr.unitSize MemoryMgr.blockLen noBlocks).init
      (.alloc 200 1000) = some t := Option.isSome_iff_exists.mp (by decide +kernel)
  have hnone : szAlloc 200 = none := by decide
  refine ⟨t, ht, (refCount_iff .init (by decide) ht).mpr fun k hk => ?_⟩
  rw [hnone] at hk
  cases hk

/-! ## The list gets empty -/

/-- As many requests as the list of a pool is long leave it empty. -/
theorem exists_exhausted {ok : State → Act → Prop} {l : List ℕ} (hok : ∀ s, ok s (.alloc n p))
    (hk : szAlloc n = some k) (h : (memoryRun nSize nBlockLen blocks).ReachWithin ok s)
    (hbuf : (s.mgr.pool k).pBuf.isSome) (hl : Linked s.next (s.mgr.pool k).pHeader l) :
    ∃ t, (memoryRun nSize nBlockLen blocks).ReachWithin ok t ∧ t.areas = s.areas ∧
      (t.mgr.pool k).pBuf.isSome ∧ (t.mgr.pool k).pHeader = none := by
  induction l generalizing s with
  | nil => exact ⟨s, h, rfl, hbuf, hl⟩
  | cons a l ih =>
    have hnot : a ∉ l := (List.nodup_cons.mp hl.nodup).1
    have hasked : s.mgr.asked n = none := by
      rw [asked_pool (origin_pool hk (.inr (by rw [hl.1]; exact nofun))), if_neg]
      rw [← Option.not_isSome, hbuf]
      exact nofun
    have hstep : step s (.alloc n p) =
        some (s.afterAlloc n p (s.mgr.take k a) (a + sizeofMemoryBlock)) :=
      step_of_allocMem (fun m hm => by rw [hasked] at hm; cases hm)
        (MemoryMgr.allocMem_front hk hbuf hl.1)
    obtain ⟨t, ht, hareas, hrest⟩ := ih (h.step (hok s) hstep)
      (show ((s.mgr.take k a).pool k).pBuf.isSome by rw [MemoryMgr.pool_take]; exact hbuf) (by
        rw [State.afterAlloc, MemoryMgr.pool_take]
        refine hl.2.congr fun b hb => congrArg MemoryBlock.pNext (MemoryMgr.take_blocks_of_ne ?_)
        rintro rfl
        exact hnot hb)
    refine ⟨t, ht, hareas.trans ?_, hrest⟩
    rw [State.afterAlloc, hasked]
    rfl

/-- The first request to a pool makes its buffer. -/
theorem State.Inv.step_first (h : s.Inv) (hk : szAlloc n = some k)
    (hbuf : (s.mgr.pool k).pBuf = none)
    (hfresh : Area.Fresh s.areas ⟨p, (s.mgr.pool k).bufSize⟩) :
    ∃ t, step s (.alloc n p) = some t ∧ (t.mgr.pool k).pBuf.isSome ∧
      t.areas = ⟨p, (s.mgr.pool k).bufSize⟩ :: s.areas := by
  have hasked : s.mgr.asked n = some (s.mgr.pool k).bufSize := by
    rw [asked_pool (origin_pool hk (.inl hbuf)), hbuf]
    rfl
  obtain ⟨blocks', hinit, -⟩ := MemoryAlloc.initMemory_blocks k
    s.mgr.blocks (fun _ => some p) hbuf (h.len k) rfl
  have hg := (MemoryMgr.allocMem_init hk hbuf hinit rfl).trans (MemoryMgr.allocMem_front hk
    (by rw [MemoryMgr.pool_put]; rfl) (a := p) (by rw [MemoryMgr.pool_put]))
  refine ⟨_, step_of_allocMem (fun m hm => ?_) hg, ?_, ?_⟩
  · rw [hasked, Option.some.injEq] at hm
    exact hm ▸ hfresh
  · rw [State.afterAlloc, MemoryMgr.pool_take, MemoryMgr.pool_put]
    rfl
  · rw [State.afterAlloc, hasked]
    rfl

/-- A request when the list is empty. -/
theorem exists_step_fallback (hk : szAlloc n = some k) (hbuf : (s.mgr.pool k).pBuf.isSome)
    (hheader : (s.mgr.pool k).pHeader = none)
    (hfresh : Area.Fresh s.areas ⟨p, addSizeT n sizeofMemoryBlock⟩) :
    ∃ t, step s (.alloc n p) = some t := by
  have horigin := origin_fallback hk hbuf hheader
  have hasked : s.mgr.asked n = some (addSizeT n sizeofMemoryBlock) :=
    asked_of_origin fun k' => by
      rw [horigin]
      exact nofun
  refine ⟨_, step_of_allocMem (fun m hm => ?_) (MemoryMgr.allocMem_fallback hk hbuf hheader)⟩
  rw [hasked, Option.some.injEq] at hm
  exact hm ▸ hfresh

/-- **A block that is never given back.**  Behind a million requests of 100 bytes, the block of
the next one is kept when it is freed. -/
theorem refCount_fails : ∃ s t : State,
    (memoryRun MemoryMgr.unitSize MemoryMgr.blockLen noBlocks).ReachWithin
      (fun _ i => Fits i) s ∧
    step s (.alloc 100 (2 ^ 40)) = some t ∧ ¬ RefCountLaw t s.serial := by
  have hk : szAlloc 100 = some .mem_128 := by decide
  have hinit : (memoryRun MemoryMgr.unitSize MemoryMgr.blockLen noBlocks).init.Inv :=
    inv_of_reach_new .init
  obtain ⟨s₁, hstep₁, hbuf₁, hareas₁⟩ := hinit.step_first (p := 1000) hk rfl (by decide)
  have hs₁ : (memoryRun MemoryMgr.unitSize MemoryMgr.blockLen noBlocks).ReachWithin
      (fun _ i => Fits i) s₁ := .step .init (show Fits (.alloc 100 1000) by decide) hstep₁
  obtain ⟨l, hl, -⟩ := (inv_of_reach_new hs₁).chained .mem_128
  obtain ⟨s, hs, hareas, hbuf, hheader⟩ := exists_exhausted (n := 100) (p := 1000)
    (fun _ => show Fits (.alloc 100 1000) by decide) hk hs₁ hbuf₁ hl
  have hfresh : Area.Fresh s.areas ⟨2 ^ 40, addSizeT 100 sizeofMemoryBlock⟩ := by
    rw [hareas, hareas₁]
    decide
  obtain ⟨t, hstep⟩ := exists_step_fallback hk hbuf hheader hfresh
  have hfits : Fits (.alloc 100 (2 ^ 40)) := by decide
  exact ⟨s, t, hs, hstep, (inv_of_reach_new (hs.step hfits hstep)).not_refCountLaw hstep
    (origin_fallback hk hbuf hheader)⟩

end MemoryRun
end EasyTcpServer
