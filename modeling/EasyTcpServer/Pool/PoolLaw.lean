import EasyTcpServer.Pool.MemoryReach
import Mathlib.Data.List.Nodup

/-!
# The law of the memory pools

In runs without `addRef`, where every address is freed at most once between two requests that
return it, the blocks of a pool are either in its list, each once, or handed out with one
reference; and no byte of memory is handed out twice.

* `Law` says this of a state, `StepLaw` of a call.
* `poolLaw`: both hold throughout, whatever the unit sizes and numbers of blocks, as long as the
  sizes of the buffers and of the requests fit a `size_t`.
* `poolLaw_of_sizes_fails`: without that they do not, and a pool with small units hands out
  blocks that are shorter than the request.
-/

namespace EasyTcpServer
namespace MemoryRun

open MemoryMgr (szAlloc)

/-! ## The buffers -/

/-- A pool keeps its buffer, and its sizes. -/
structure Kept (m m' : MemoryAlloc) : Prop where
  nSize : m'.nSize = m.nSize
  nBlockLen : m'.nBlockLen = m.nBlockLen
  pBuf : ∀ p, m.pBuf = some p → m'.pBuf = some p

variable {m m' m'' : MemoryAlloc}

theorem Kept.refl (m : MemoryAlloc) : Kept m m := ⟨rfl, rfl, fun _ h => h⟩

theorem Kept.trans (h : Kept m m') (h' : Kept m' m'') : Kept m m'' :=
  ⟨h'.nSize.trans h.nSize, h'.nBlockLen.trans h.nBlockLen, fun p hp => h'.pBuf p (h.pBuf p hp)⟩

section

variable (this : Pool) (blocks : Blocks) (malloc : ℕ → Option ℕ)

theorem kept_initMemory (m : MemoryAlloc) : Kept m (m.initMemory this blocks malloc).1 := by
  unfold MemoryAlloc.initMemory
  split_ifs with hsome
  · exact .refl m
  · cases malloc m.bufSize with
    | none => exact .refl m
    | some p =>
      refine ⟨rfl, rfl, fun q hq => ?_⟩
      rw [hq] at hsome
      exact absurd rfl hsome

theorem kept_takeBlock {nSize : ℕ} {r : MemoryAlloc × Blocks × ℕ}
    (h : m.takeBlock blocks malloc nSize = some r) : Kept m r.1 := by
  unfold MemoryAlloc.takeBlock at h
  cases hheader : m.pHeader with
  | none =>
    rw [hheader] at h
    obtain ⟨p, -, rfl⟩ := Option.map_eq_some_iff.mp h
    exact .refl m
  | some a =>
    rw [hheader] at h
    cases h
    exact ⟨rfl, rfl, fun _ hp => hp⟩

theorem kept_allocMemory {nSize : ℕ} {r : MemoryAlloc × Blocks × ℕ}
    (h : m.allocMemory this blocks malloc nSize = some r) : Kept m r.1 := by
  unfold MemoryAlloc.allocMemory at h
  split_ifs at h
  · exact (kept_initMemory this blocks malloc m).trans (kept_takeBlock _ _ h)
  · exact kept_takeBlock _ _ h

theorem kept_freeMemory (m : MemoryAlloc) (pMem : ℕ) : Kept m (m.freeMemory blocks pMem).1 := by
  unfold MemoryAlloc.freeMemory
  dsimp only
  split_ifs <;> exact ⟨rfl, rfl, fun _ hp => hp⟩

end

variable {g g' : MemoryMgr} {s t : State} {a : ℕ} {k : Pool} {r : Handed}

theorem kept_put (blocks : Blocks) {k : Pool} (h : Kept (g.pool k) m) (k' : Pool) :
    Kept (g.pool k') ((g.put m blocks k).pool k') := by
  by_cases hkk : k' = k
  · rw [hkk, MemoryMgr.pool_put]
    exact h
  · rw [MemoryMgr.pool_put_of_ne _ _ hkk]
    exact .refl _

theorem kept_allocMem {malloc : ℕ → Option ℕ} {nSize : ℕ} {pMem : Option ℕ}
    (h : g.allocMem malloc nSize = some (g', pMem)) (k : Pool) : Kept (g.pool k) (g'.pool k) := by
  unfold MemoryMgr.allocMem at h
  split_ifs at h
  · obtain ⟨k', -, h⟩ := Option.bind_eq_some_iff.mp h
    obtain ⟨r, hr, h⟩ := Option.map_eq_some_iff.mp h
    cases h
    exact kept_put _ (kept_allocMemory _ _ _ hr) k
  · cases hmalloc : malloc (addSizeT nSize sizeofMemoryBlock) with
    | none =>
      rw [hmalloc] at h
      cases h
      exact .refl _
    | some p =>
      rw [hmalloc] at h
      cases h
      cases k <;> exact .refl _

theorem kept_freeMem {pMem : ℕ} {q : Option ℕ × ℤ}
    (h : g.freeMem (some pMem) = some (g', q)) (k : Pool) : Kept (g.pool k) (g'.pool k) := by
  unfold MemoryMgr.freeMem at h
  dsimp only at h
  by_cases hpool : (g.blocks (pMem - sizeofMemoryBlock)).bPool = true
  · rw [if_pos hpool] at h
    obtain ⟨k', -, h⟩ := Option.map_eq_some_iff.mp h
    cases h
    exact kept_put _ (kept_freeMemory _ _ _) k
  · rw [if_neg hpool] at h
    cases h
    cases k <;> exact .refl _

theorem kept_addRef {pMem : ℕ} (h : g.addRef pMem = some g') (k : Pool) :
    Kept (g.pool k) (g'.pool k) := by
  rw [MemoryMgr.addRef, Option.ite_none_right_eq_some, Option.some.injEq] at h
  rw [← h.2]
  cases k <;> exact .refl _

/-- No call moves a buffer. -/
theorem kept_step {i : Act} (hstep : step s i = some t) (k : Pool) :
    Kept (s.mgr.pool k) (t.mgr.pool k) := by
  cases i with
  | alloc nSize p =>
    obtain ⟨g, pMem, hg, -, rfl⟩ := step_alloc hstep
    exact kept_allocMem hg k
  | addRef a =>
    obtain ⟨r, g, -, -, hg, rfl⟩ := step_addRef hstep
    exact kept_addRef hg k
  | free a =>
    obtain ⟨r, g, freed, z, -, -, hg, rfl⟩ := step_free hstep
    exact kept_freeMem hg k

/-! ## The law -/

/-- A block of the pool that is handed out. -/
def State.Live (s : State) (k : Pool) (a : ℕ) : Prop :=
  ∃ r, s.handed a = some r ∧ r.origin = .pool k

/-- There is a block at `a` with a user area of this size. -/
inductive State.Block (s : State) : ℕ → ℕ → Prop
  | pool {k : Pool} {a : ℕ} (h : s.IsBlock k a) : s.Block a (s.mgr.pool k).nSize
  | malloc {a : ℕ} {r : Handed} (hr : s.handed a = some r) (h : r.IsMalloc) : s.Block a r.nSize

/-- What the callers may write to. -/
def userArea (a nSize : ℕ) : Area := ⟨a + sizeofMemoryBlock, nSize⟩

def headerArea (a : ℕ) : Area := ⟨a, sizeofMemoryBlock⟩

/-- A free block is in order. -/
structure FreeBlock (b : MemoryBlock) (k : Pool) : Prop where
  bPool : b.bPool = true
  pAlloc : b.pAlloc = some k
  nRef : b.nRef = 0

/-- **The law of the pools.** -/
structure Law (nSize nBlockLen : Pool → ℕ) (s : State) : Prop where
  sizes : ∀ k, (s.mgr.pool k).nSize = (MemoryAlloc.new (nSize k) (nBlockLen k)).nSize ∧
    (s.mgr.pool k).nBlockLen = nBlockLen k
  /-- `initMemory` runs once. -/
  once : ∀ k, s.inits k = if (s.mgr.pool k).pBuf = none then 0 else 1
  /-- It makes `nBlockLen` blocks. -/
  count : ∀ k, (s.mgr.pool k).pBuf.isSome →
    ∃ l : List ℕ, l.Nodup ∧ l.length = nBlockLen k ∧ ∀ a, a ∈ l ↔ s.IsBlock k a
  /-- The list of a pool ends, has each free block once, and has no other. -/
  chain : ∀ k, ∃ l, Linked s.next (s.mgr.pool k).pHeader l ∧ l.Nodup ∧
    (∀ a ∈ l, FreeBlock (s.mgr.blocks a) k) ∧ ∀ a, a ∈ l ↔ s.IsBlock k a ∧ ¬ s.Live k a
  live : ∀ k a, s.Live k a → s.IsBlock k a ∧ (s.mgr.blocks a).nRef = 1
  malloc : ∀ a r, s.handed a = some r → r.IsMalloc → ∀ k, ¬ s.IsBlock k a
  apart : ∀ a n b m, s.Block a n → s.Block b m → a ≠ b →
    (userArea a n).Apart (userArea b m) ∧ (userArea a n).Apart (headerArea b)
  inside : ∀ k a p, s.IsBlock k a → (s.mgr.pool k).pBuf = some p →
    (userArea a (s.mgr.pool k).nSize).Within ⟨p, (s.mgr.pool k).bufSize⟩

/-- The blocks of a pool are as large as the requests they are handed out for. -/
def Serves (s : State) : Prop :=
  ∀ k a r, s.handed a = some r → r.origin = .pool k → r.nSize ≤ (s.mgr.pool k).nSize

/-- What a call does: a request gets a block that is not handed out, and a block of a pool that
is freed goes to the front of the list of that pool. -/
def StepLaw (s t : State) : Act → Prop
  | .alloc nSize _ => ∃ a, s.handed a = none ∧
      t.handed = Function.update s.handed a (some ⟨s.serial, nSize, s.mgr.origin nSize, 0, 0⟩)
  | .free a => ∀ k, s.Live k a → t.handed a = none ∧ (t.mgr.pool k).pHeader = some a ∧
      ∀ k', k' ≠ k → t.mgr.pool k' = s.mgr.pool k'
  | .addRef _ => True

/-- The calls of a program without `addRef`. -/
def NoAddRef : Act → Prop
  | .addRef _ => False
  | _ => True

instance : (i : Act) → Decidable (NoAddRef i)
  | .addRef _ => .isFalse id
  | .alloc _ _ | .free _ => .isTrue trivial

/-- Without `addRef` there is no second reference. -/
theorem addRefs_step {i : Act} (hi : NoAddRef i) (hstep : step s i = some t)
    (h : ∀ a r, s.handed a = some r → r.addRefs = 0) :
    ∀ a r, t.handed a = some r → r.addRefs = 0 := by
  intro a r hr
  rcases handed_step hstep hr with ⟨r', hr', -, -, hadd | rfl⟩ | ⟨n, p, -, rfl⟩
  · exact hadd.trans (h a r' hr')
  · exact hi.elim
  · rfl

/-- The sizes of the pools are those they were made with. -/
def Sized (nSize nBlockLen : Pool → ℕ) (s : State) : Prop :=
  ∀ k, (s.mgr.pool k).nSize = (MemoryAlloc.new (nSize k) (nBlockLen k)).nSize ∧
    (s.mgr.pool k).nBlockLen = nBlockLen k

variable {nSize nBlockLen : Pool → ℕ} {blocks : Blocks}

theorem sized_of_reach {ok : State → Act → Prop}
    (h : (memoryRun nSize nBlockLen blocks).ReachWithin ok s) : Sized nSize nBlockLen s := by
  refine h.invariant (fun k => ?_) fun s i t hs _ hstep k => ?_
  · have hpool : (memoryRun nSize nBlockLen blocks).init.mgr.pool k =
        .new (nSize k) (nBlockLen k) := pool_ofSizes k
    rw [hpool]
    exact ⟨rfl, rfl⟩
  · have hkept := kept_step hstep k
    rw [hkept.nSize, hkept.nBlockLen]
    exact hs k

/-! ## The invariant implies the law -/

/-- Where a block lies: in memory from `malloc` of its own, or in the buffer of its pool. -/
theorem State.Inv.owner (h : s.Inv) {n : ℕ} (hb : s.Block a n) :
    ∃ q ∈ s.areas, (Area.mk a (n + sizeofMemoryBlock)).Within q ∧
      (q.start = a ∧ (∀ k, ¬ s.IsBlock k a) ∨
        ∃ k, s.IsBlock k a ∧ n = (s.mgr.pool k).nSize ∧ (s.mgr.pool k).pBuf = some q.start) := by
  cases hb with
  | @pool k _ hk =>
    obtain ⟨p, hp, hwithin⟩ := hk.within h
    exact ⟨_, h.buffer k p hp, hwithin, .inr ⟨k, hk, rfl, hp⟩⟩
  | malloc hr hmalloc =>
    exact ⟨_, (h.mallocOk hr hmalloc).area, Area.Within.refl _,
      .inl ⟨rfl, h.not_isBlock hr hmalloc⟩⟩

/-- Two blocks share no byte. -/
theorem State.Inv.extent_apart (h : s.Inv) {n b m : ℕ} (ha : s.Block a n) (hb : s.Block b m)
    (hne : a ≠ b) :
    (Area.mk a (n + sizeofMemoryBlock)).Apart ⟨b, m + sizeofMemoryBlock⟩ := by
  obtain ⟨q, hq, hwithin, hown⟩ := h.owner ha
  obtain ⟨q', hq', hwithin', hown'⟩ := h.owner hb
  by_cases hqq : q = q'
  · subst hqq
    rcases hown with ⟨hstart, hno⟩ | ⟨k, hk, rfl, hbuf⟩
    · rcases hown' with ⟨hstart', -⟩ | ⟨k', -, -, hbuf'⟩
      · exact absurd (hstart.symm.trans hstart') hne
      · exact absurd (hstart ▸ h.isBlock_buffer hbuf') (hno k')
    · rcases hown' with ⟨hstart', hno'⟩ | ⟨k', hk', rfl, hbuf'⟩
      · exact absurd (hstart' ▸ h.isBlock_buffer hbuf) (hno' k)
      · obtain rfl := h.pool_unique (h.isBlock_buffer hbuf) (h.isBlock_buffer hbuf')
        obtain ⟨p, i, hp, -, rfl⟩ := hk
        obtain ⟨p', j, hp', -, rfl⟩ := hk'
        obtain rfl : p = p' := Option.some.inj (hp.symm.trans hp')
        refine Area.slot_apart p ((s.mgr.pool k).nSize + sizeofMemoryBlock) ?_
        rintro rfl
        exact hne rfl
  · exact (Area.apart_of_mem h.apart hq hq' hqq).of_within hwithin hwithin'

theorem userArea_within (a n : ℕ) :
    (userArea a n).Within ⟨a, n + sizeofMemoryBlock⟩ := by
  unfold Area.Within userArea
  dsimp only
  omega

theorem headerArea_within (a n : ℕ) :
    (headerArea a).Within ⟨a, n + sizeofMemoryBlock⟩ := by
  unfold Area.Within headerArea
  dsimp only
  omega

/-- The blocks of a buffer, in order. -/
theorem State.exists_isBlock (hbuf : (s.mgr.pool k).pBuf.isSome) :
    ∃ l : List ℕ, l.Nodup ∧ l.length = (s.mgr.pool k).nBlockLen ∧ ∀ a, a ∈ l ↔ s.IsBlock k a := by
  obtain ⟨p, hp⟩ := Option.isSome_iff_exists.mp hbuf
  refine ⟨(List.range (s.mgr.pool k).nBlockLen).map
    (MemoryAlloc.blockAt (s.mgr.pool k).nSize p), ?_, ?_, fun a => ?_⟩
  · exact List.nodup_range.map (MemoryAlloc.blockAt_injective _ _)
  · rw [List.length_map, List.length_range]
  · rw [List.mem_map]
    constructor
    · rintro ⟨i, hi, rfl⟩
      exact ⟨p, i, hp, List.mem_range.mp hi, rfl⟩
    · rintro ⟨p', i, hp', hi, rfl⟩
      obtain rfl : p = p' := Option.some.inj (hp.symm.trans hp')
      exact ⟨i, List.mem_range.mpr hi, rfl⟩

/-- A block of a pool is handed out, or free. -/
theorem State.Inv.live_iff (h : s.Inv) (hk : s.IsBlock k a) :
    s.Live k a ↔ s.handed a ≠ none := by
  constructor
  · rintro ⟨r, hr, -⟩ hnone
    rw [hnone] at hr
    cases hr
  · intro hne
    obtain ⟨r, hr⟩ := Option.ne_none_iff_exists'.mp hne
    exact ⟨r, hr, ((h.block k a hk).handed r hr).1⟩

theorem State.Inv.law (h : s.Inv) (hsizes : Sized nSize nBlockLen s)
    (hadd : ∀ a r, s.handed a = some r → r.addRefs = 0) : Law nSize nBlockLen s := by
  refine ⟨hsizes, h.inits, fun k hbuf => ?_, fun k => ?_, fun k a ⟨r, hr, hk⟩ => ?_,
    fun a r hr hmalloc => h.not_isBlock hr hmalloc, fun a n b m ha hb hne => ?_,
    fun k a p hk hp => ?_⟩
  · rw [← (hsizes k).2]
    exact State.exists_isBlock hbuf
  · obtain ⟨l, hlinked, hl⟩ := h.chained k
    refine ⟨l, hlinked, hlinked.nodup, fun a ha => ?_, fun a => ?_⟩
    · obtain ⟨hk, hnone⟩ := (hl a).mp ha
      have hok := h.block k a hk
      refine ⟨hok.bPool, hok.pAlloc, ?_⟩
      rw [hok.nRef, hnone]
      rfl
    · rw [hl a]
      exact and_congr_right fun hk => by rw [h.live_iff hk, not_not]
  · obtain ⟨hblock, hnRef, hle⟩ := h.nRef_pool hr hk
    have hzero := hadd a r hr
    exact ⟨hblock, by omega⟩
  · have hapart := h.extent_apart ha hb hne
    exact ⟨hapart.of_within (userArea_within a n) (userArea_within b m),
      hapart.of_within (userArea_within a n) (headerArea_within b m)⟩
  · obtain ⟨p', hp', hwithin⟩ := hk.within h
    obtain rfl : p = p' := Option.some.inj (hp.symm.trans hp')
    exact (userArea_within a _).trans hwithin

/-- The largest request the table sends to a pool. -/
theorem le_unitSize {n : ℕ} (h : szAlloc n = some k) : n ≤ MemoryMgr.unitSize k := by
  unfold szAlloc MemoryMgr.initSzAlloc at h
  split_ifs at h with hlarge hsmall
  · cases h
    exact hlarge.2
  · cases h
    exact hsmall.2

theorem State.Inv.serves (h : s.Inv) (hunit : ∀ k, MemoryMgr.unitSize k ≤ (s.mgr.pool k).nSize) :
    Serves s := by
  intro k a r hr hk
  obtain ⟨hblock, -⟩ := h.nRef_pool hr hk
  exact (le_unitSize ((h.block k a hblock).handed r hr).2.2).trans (hunit k)

/-! ## Calls -/

/-- A request gets a block that is not handed out. -/
theorem State.Inv.handed_alloc (h : s.Inv) {n p pMem : ℕ} (hn : n + sizeofMemoryBlock < 2 ^ 64)
    (hfresh : ∀ m, s.mgr.asked n = some m → Area.Fresh s.areas ⟨p, m⟩)
    (hg : s.mgr.allocMem (fun _ => some p) n = some (g, some pMem)) :
    s.handed (pMem - sizeofMemoryBlock) = none := by
  have hmalloc (hnot : ∀ k, s.mgr.origin n ≠ .pool k) : s.handed p = none := by
    have hasked := asked_of_origin hnot
    rw [addSizeT, Nat.mod_eq_of_lt hn] at hasked
    exact (h.of_fresh (Nat.add_pos_right _ (by decide)) (hfresh _ hasked)).2
  cases hk : szAlloc n with
  | none =>
    rw [MemoryMgr.allocMem_large hk] at hg
    cases hg
    rw [Nat.add_sub_cancel]
    exact hmalloc fun k hpool => by cases (origin_large hk).symm.trans hpool
  | some k =>
    cases hbuf : (s.mgr.pool k).pBuf with
    | none =>
      have hasked : s.mgr.asked n = some (s.mgr.pool k).bufSize := by
        rw [asked_pool (origin_pool hk (.inl hbuf)), hbuf]
        rfl
      obtain ⟨blocks, hinit, -⟩ := MemoryAlloc.initMemory_blocks k
        s.mgr.blocks (fun _ => some p) hbuf (h.len k) rfl
      rw [MemoryMgr.allocMem_init hk hbuf hinit rfl, MemoryMgr.allocMem_front hk
        (by rw [MemoryMgr.pool_put]; rfl) (a := p) (by rw [MemoryMgr.pool_put])] at hg
      cases hg
      rw [Nat.add_sub_cancel]
      refine (h.of_fresh ?_ (hfresh _ hasked)).2
      rw [h.bufSize_eq]
      exact Nat.mul_pos (Nat.add_pos_right _ (by decide)) (h.len k)
    | some q =>
      have hsome : (s.mgr.pool k).pBuf.isSome := by rw [hbuf]; rfl
      cases hheader : (s.mgr.pool k).pHeader with
      | none =>
        rw [MemoryMgr.allocMem_fallback hk hsome hheader] at hg
        cases hg
        rw [Nat.add_sub_cancel]
        exact hmalloc fun k' hpool => by cases (origin_fallback hk hsome hheader).symm.trans hpool
      | some a =>
        rw [MemoryMgr.allocMem_front hk hsome hheader] at hg
        cases hg
        rw [Nat.add_sub_cancel]
        obtain ⟨l, hlinked, hl⟩ := h.chained k
        rw [hheader] at hlinked
        obtain ⟨l', rfl, -⟩ := hlinked.pop
        exact ((hl a).mp List.mem_cons_self).2

theorem State.Inv.stepLaw (h : s.Inv) {i : Act} (hfits : Fits i)
    (hadd : ∀ a r, s.handed a = some r → r.addRefs = 0) (hstep : step s i = some t) :
    StepLaw s t i := by
  cases i with
  | alloc n p =>
    obtain ⟨g, pMem, hg, hfresh, rfl⟩ := step_alloc hstep
    exact ⟨pMem - sizeofMemoryBlock, h.handed_alloc hfits hfresh hg, handed_afterAlloc⟩
  | addRef a => trivial
  | free a =>
    rintro k ⟨r, hr, hk⟩
    obtain ⟨-, -, hle⟩ := h.nRef_pool hr hk
    have hzero := hadd a r hr
    rw [h.step_free_back hr hk (by omega), Option.some.injEq] at hstep
    rw [← hstep]
    refine ⟨Function.update_self .., ?_, fun k' hkk => MemoryMgr.pool_push_of_ne hkk⟩
    rw [MemoryMgr.pool_push]

/-! ## Runs -/

/-- The calls of a program without `addRef` whose requests fit a `size_t`. -/
def Plain (_ : State) (i : Act) : Prop := NoAddRef i ∧ Fits i

instance (s : State) (i : Act) : Decidable (Plain s i) := by
  unfold Plain
  infer_instance

/-- **The law of the pools holds in every run.** -/
theorem poolLaw (hlen : ∀ k, 1 ≤ nBlockLen k) (hfits : BuffersFit nSize nBlockLen)
    (h : (memoryRun nSize nBlockLen blocks).ReachWithin Plain s) :
    Law nSize nBlockLen s ∧
      ((∀ k, MemoryMgr.unitSize k ≤ (MemoryAlloc.new (nSize k) (nBlockLen k)).nSize) →
        Serves s) ∧
      ∀ i t, Plain s i → step s i = some t → StepLaw s t i := by
  have hinv : s.Inv := inv_of_reach hlen hfits (fun _ _ hi => hi.2) h
  have hsizes := sized_of_reach h
  have hadd : ∀ a r, s.handed a = some r → r.addRefs = 0 :=
    h.invariant (I := fun s => ∀ a r, s.handed a = some r → r.addRefs = 0)
      (fun a r hr => absurd hr (by simp [memoryRun]))
      fun _ _ _ hs hi hstep => addRefs_step hi.1 hstep hs
  refine ⟨hinv.law hsizes hadd, fun hunit => hinv.serves fun k => ?_,
    fun i t hi hstep => hinv.stepLaw hi.2 hadd hstep⟩
  rw [(hsizes k).1]
  exact hunit k

/-- Headers of no blocks. -/
def noBlocks : Blocks := fun _ => ⟨0, 0, none, none, false⟩

/-- Two small requests to a pool of one block, one of which is freed, and a large request. -/
theorem poolLaw_small_pools :
    ∃ s, (memoryRun MemoryMgr.unitSize (fun _ => 1) noBlocks).ReachWithin Plain s ∧
      s.handed 1000 = none ∧ s.handed 5000 = some ⟨1, 40, .fallback, 0, 0⟩ ∧
      s.handed 9000 = some ⟨2, 200, .large, 0, 0⟩ ∧
      Law MemoryMgr.unitSize (fun _ => 1) s ∧ Serves s ∧
      ∀ i t, Plain s i → step s i = some t → StepLaw s t i := by
  obtain ⟨s, hs, hp⟩ := Machine.exists_reachWithin_of_run
    (M := memoryRun MemoryMgr.unitSize (fun _ => 1) noBlocks) Plain
    [.alloc 40 1000, .alloc 40 5000, .free 1000, .alloc 200 9000]
    (fun s => s.handed 1000 = none ∧ s.handed 5000 = some ⟨1, 40, .fallback, 0, 0⟩ ∧
      s.handed 9000 = some ⟨2, 200, .large, 0, 0⟩) (by decide +kernel)
  obtain ⟨hfree, hfallback, hlarge⟩ := of_decide_eq_true hp
  obtain ⟨hlaw, hserves, hstep⟩ := poolLaw (fun _ => le_refl 1)
    (fun k => by cases k <;> decide) hs
  exact ⟨s, hs, hfree, hfallback, hlarge, hlaw, hserves fun k => by cases k <;> decide, hstep⟩

/-- **For arbitrary sizes the law fails.**  A unit of 8 bytes is too short for the requests the
table sends to the pool; the size of a buffer of two units of `2 ^ 63 - 24` bytes wraps around to
16 bytes; and so does the size of a request for `2 ^ 64 - 1` bytes, so that the next block lies
inside what is handed out for it. -/
theorem poolLaw_of_sizes_fails :
    (∃ s, (memoryRun (fun _ => 8) (fun _ => 1) noBlocks).ReachWithin
      (fun _ i => NoAddRef i) s ∧ ¬ Serves s) ∧
    (∃ s, (memoryRun (fun _ => 2 ^ 63 - 24) (fun _ => 2) noBlocks).ReachWithin
      (fun _ i => NoAddRef i) s ∧ ¬ Law (fun _ => 2 ^ 63 - 24) (fun _ => 2) s) ∧
    ∃ s, (memoryRun MemoryMgr.unitSize (fun _ => 1) noBlocks).ReachWithin
      (fun _ i => NoAddRef i) s ∧ ¬ Law MemoryMgr.unitSize (fun _ => 1) s := by
  refine ⟨?_, ?_, ?_⟩
  · obtain ⟨s, hs, hp⟩ := Machine.exists_reachWithin_of_run
      (M := memoryRun (fun _ => 8) (fun _ => 1) noBlocks) (fun _ i => NoAddRef i)
      [.alloc 64 1000]
      (fun s => s.handed 1000 = some ⟨0, 64, .pool .mem_64, 0, 0⟩ ∧
        (s.mgr.pool .mem_64).nSize = 8) (by decide +kernel)
    obtain ⟨hr, hsize⟩ := of_decide_eq_true hp
    refine ⟨s, hs, fun hserves => ?_⟩
    have hle := hserves _ _ _ hr rfl
    rw [hsize] at hle
    exact absurd hle (by decide)
  · obtain ⟨s, hs, hp⟩ := Machine.exists_reachWithin_of_run
      (M := memoryRun (fun _ => 2 ^ 63 - 24) (fun _ => 2) noBlocks) (fun _ i => NoAddRef i)
      [.alloc 64 1000]
      (fun s => (s.mgr.pool .mem_64).pBuf = some 1000 ∧ (s.mgr.pool .mem_64).nBlockLen = 2 ∧
        (s.mgr.pool .mem_64).bufSize = 16) (by decide +kernel)
    obtain ⟨hbuf, hlen, hsize⟩ := of_decide_eq_true hp
    refine ⟨s, hs, fun hlaw => ?_⟩
    have hblock : s.IsBlock .mem_64 1000 :=
      ⟨1000, 0, hbuf, by rw [hlen]; decide, (MemoryAlloc.blockAt_zero _ _).symm⟩
    obtain ⟨-, hle⟩ := hlaw.inside _ _ _ hblock hbuf
    rw [hsize] at hle
    simp only [userArea, sizeofMemoryBlock] at hle
    omega
  · obtain ⟨s, hs, hp⟩ := Machine.exists_reachWithin_of_run
      (M := memoryRun MemoryMgr.unitSize (fun _ => 1) noBlocks) (fun _ i => NoAddRef i)
      [.alloc (2 ^ 64 - 1) 1000, .alloc 200 1031]
      (fun s => s.handed 1000 = some ⟨0, 2 ^ 64 - 1, .large, 0, 0⟩ ∧
        s.handed 1031 = some ⟨1, 200, .large, 0, 0⟩) (by decide +kernel)
    obtain ⟨hr, hr'⟩ := of_decide_eq_true hp
    refine ⟨s, hs, fun hlaw => ?_⟩
    obtain ⟨-, hapart⟩ := hlaw.apart _ _ _ _ (.malloc hr fun k hk => by cases hk)
      (.malloc hr' fun k hk => by cases hk) (by decide)
    exact absurd hapart (by decide)

end MemoryRun
end EasyTcpServer
