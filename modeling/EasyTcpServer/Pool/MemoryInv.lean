import EasyTcpServer.Pool.MemoryRun

/-!
# The invariant of the memory manager

In every run the list of a pool goes through exactly those blocks of its buffer that are not
handed out.  A block that is handed out has as many references as its callers hold; a block
that comes from `malloc` because the list was empty has one less.

* `State.Inv` says this of a state, and that the buffers and the blocks from `malloc` lie in
  areas that are apart from each other.
* `Inv.addRef`, `Inv.free`: the calls that count references keep it.
-/

namespace EasyTcpServer
namespace MemoryRun

open MemoryMgr (szAlloc)

/-- `a` is the address of one of the blocks that `initMemory` has made for the pool. -/
def State.IsBlock (s : State) (k : Pool) (a : ℕ) : Prop :=
  ∃ p n, (s.mgr.pool k).pBuf = some p ∧ n < (s.mgr.pool k).nBlockLen ∧
    a = MemoryAlloc.blockAt (s.mgr.pool k).nSize p n

def State.next (s : State) (a : ℕ) : Option ℕ := (s.mgr.blocks a).pNext

/-- How many references there are to a block of a pool. -/
def refs (h : Option Handed) : ℤ := h.elim 0 fun r => 1 + r.addRefs - r.frees

/-- The block comes from `malloc`. -/
def Handed.IsMalloc (r : Handed) : Prop := ∀ k, r.origin ≠ .pool k

/-- What holds of a block of a pool. -/
structure BlockOk (s : State) (k : Pool) (a : ℕ) : Prop where
  bPool : (s.mgr.blocks a).bPool = true
  pAlloc : (s.mgr.blocks a).pAlloc = some k
  nRef : (s.mgr.blocks a).nRef = refs (s.handed a)
  handed : ∀ r, s.handed a = some r →
    r.origin = .pool k ∧ r.frees ≤ r.addRefs ∧ szAlloc r.nSize = some k

/-- What holds of a block from `malloc`. -/
structure MallocOk (s : State) (a : ℕ) (r : Handed) : Prop where
  area : ⟨a, r.nSize + sizeofMemoryBlock⟩ ∈ s.areas
  bPool : (s.mgr.blocks a).bPool = false
  nRef : (s.mgr.blocks a).nRef =
    (if r.origin = .fallback then 0 else 1) + r.addRefs - r.frees
  large : r.origin = .large → r.frees ≤ r.addRefs

/-- What holds of a block that is handed out. -/
def HandedOk (s : State) (a : ℕ) (r : Handed) : Prop :=
  (∃ k, r.origin = .pool k ∧ s.IsBlock k a) ∨ r.IsMalloc ∧ MallocOk s a r

/-- The list of the pool runs through exactly the blocks that are not handed out. -/
def Chained (s : State) (k : Pool) : Prop :=
  ∃ l, Linked s.next (s.mgr.pool k).pHeader l ∧
    ∀ a, a ∈ l ↔ s.IsBlock k a ∧ s.handed a = none

/-- **The invariant.** -/
structure State.Inv (s : State) : Prop where
  len : ∀ k, 1 ≤ (s.mgr.pool k).nBlockLen
  fits : ∀ k, ((s.mgr.pool k).nSize + sizeofMemoryBlock) * (s.mgr.pool k).nBlockLen < 2 ^ 64
  header : ∀ k, (s.mgr.pool k).pBuf = none → (s.mgr.pool k).pHeader = none
  inits : ∀ k, s.inits k = if (s.mgr.pool k).pBuf = none then 0 else 1
  buffer : ∀ k p, (s.mgr.pool k).pBuf = some p → ⟨p, (s.mgr.pool k).bufSize⟩ ∈ s.areas
  chained : ∀ k, Chained s k
  block : ∀ k a, s.IsBlock k a → BlockOk s k a
  handed : ∀ a r, s.handed a = some r → HandedOk s a r
  apart : s.areas.Pairwise Area.Apart

variable {s t : State} {a : ℕ} {k : Pool} {r : Handed}

/-! ## Where the blocks are -/

theorem State.Inv.bufSize_eq (h : s.Inv) (k : Pool) : (s.mgr.pool k).bufSize =
    ((s.mgr.pool k).nSize + sizeofMemoryBlock) * (s.mgr.pool k).nBlockLen := by
  have hfits := h.fits k
  have hle := Nat.le_mul_of_pos_right ((s.mgr.pool k).nSize + sizeofMemoryBlock) (h.len k)
  rw [MemoryAlloc.bufSize, addSizeT, mulSizeT, Nat.mod_eq_of_lt (hle.trans_lt hfits),
    Nat.mod_eq_of_lt hfits]

/-- The header of a block and its user area lie in the buffer. -/
theorem State.IsBlock.within (hinv : s.Inv) (h : s.IsBlock k a) :
    ∃ p, (s.mgr.pool k).pBuf = some p ∧
      (Area.mk a ((s.mgr.pool k).nSize + sizeofMemoryBlock)).Within
        ⟨p, (s.mgr.pool k).bufSize⟩ := by
  obtain ⟨p, n, hp, hn, rfl⟩ := h
  refine ⟨p, hp, ?_⟩
  rw [hinv.bufSize_eq]
  exact Area.slot_within p _ hn

/-- The buffer starts with a block. -/
theorem State.Inv.isBlock_buffer (h : s.Inv) {p : ℕ} (hp : (s.mgr.pool k).pBuf = some p) :
    s.IsBlock k p :=
  ⟨p, 0, hp, h.len k, (MemoryAlloc.blockAt_zero _ _).symm⟩

/-- A block belongs to one pool. -/
theorem State.Inv.pool_unique (h : s.Inv) {k' : Pool} (hk : s.IsBlock k a)
    (hk' : s.IsBlock k' a) : k = k' :=
  Option.some.inj ((h.block k a hk).pAlloc.symm.trans (h.block k' a hk').pAlloc)

theorem State.Inv.not_isBlock (h : s.Inv) (hr : s.handed a = some r) (hmalloc : r.IsMalloc)
    (k : Pool) : ¬ s.IsBlock k a :=
  fun hk => hmalloc k ((h.block k a hk).handed r hr).1

theorem State.Inv.mallocOk (h : s.Inv) (hr : s.handed a = some r) (hmalloc : r.IsMalloc) :
    MallocOk s a r := by
  rcases h.handed a r hr with ⟨k, hk, -⟩ | ⟨-, hok⟩
  · exact absurd hk (hmalloc k)
  · exact hok

/-- What `malloc` returns is not a block, and not handed out. -/
theorem State.Inv.of_fresh (h : s.Inv) {p n : ℕ} (hn : 0 < n)
    (hfresh : Area.Fresh s.areas ⟨p, n⟩) : (∀ k, ¬ s.IsBlock k p) ∧ s.handed p = none := by
  have hblock (k : Pool) : ¬ s.IsBlock k p := by
    intro hk
    obtain ⟨q, hq, hwithin⟩ := hk.within h
    have hapart := (hfresh.2.2 _ (h.buffer k q hq)).of_within (Area.Within.refl _) hwithin
    exact hapart.start_ne hn (Nat.add_pos_right _ (by decide)) rfl
  refine ⟨hblock, ?_⟩
  cases hr : s.handed p with
  | none => rfl
  | some r =>
    rcases h.handed p r hr with ⟨k, -, hk⟩ | ⟨-, hok⟩
    · exact absurd hk (hblock k)
    · exact absurd rfl
        ((hfresh.2.2 _ hok.area).start_ne hn (Nat.add_pos_right _ (by decide)))

/-! ## Changing one block -/

/-- The buffer of a pool is where it was. -/
structure SameBuffer (m m' : MemoryAlloc) : Prop where
  pBuf : m'.pBuf = m.pBuf
  nSize : m'.nSize = m.nSize
  nBlockLen : m'.nBlockLen = m.nBlockLen

theorem SameBuffer.refl (m : MemoryAlloc) : SameBuffer m m := ⟨rfl, rfl, rfl⟩

theorem isBlock_congr (h : SameBuffer (s.mgr.pool k) (t.mgr.pool k)) :
    t.IsBlock k a ↔ s.IsBlock k a := by
  unfold State.IsBlock
  rw [h.pBuf, h.nSize, h.nBlockLen]

theorem BlockOk.congr (h : BlockOk s k a) (hblocks : t.mgr.blocks a = s.mgr.blocks a)
    (hhanded : t.handed a = s.handed a) : BlockOk t k a := by
  refine ⟨?_, ?_, ?_, ?_⟩
  · rw [hblocks]
    exact h.bPool
  · rw [hblocks]
    exact h.pAlloc
  · rw [hblocks, hhanded]
    exact h.nRef
  · rw [hhanded]
    exact h.handed

/-- The list of a pool stays as it is when the block that changes is not free before and
behind. -/
theorem State.Inv.chained_of_agree (h : s.Inv)
    (hbuffer : SameBuffer (s.mgr.pool k) (t.mgr.pool k))
    (hheader : (t.mgr.pool k).pHeader = (s.mgr.pool k).pHeader)
    (hblocks : ∀ b, b ≠ a → t.mgr.blocks b = s.mgr.blocks b)
    (hhanded : ∀ b, b ≠ a → t.handed b = s.handed b)
    (ha : s.IsBlock k a → s.handed a ≠ none ∧ t.handed a ≠ none) : Chained t k := by
  obtain ⟨l, hlinked, hl⟩ := h.chained k
  have hnot : a ∉ l := fun hal => (ha ((hl a).mp hal).1).1 ((hl a).mp hal).2
  refine ⟨l, ?_, ?_⟩
  · rw [hheader]
    refine hlinked.congr fun b hb => congrArg MemoryBlock.pNext (hblocks b ?_)
    rintro rfl
    exact hnot hb
  · intro b
    rw [hl b, isBlock_congr hbuffer]
    by_cases hba : b = a
    · subst hba
      exact and_congr_right fun hb => iff_of_false (ha hb).1 (ha hb).2
    · rw [hhanded b hba]

/-- What is to be shown when only the block at `a` changes. -/
theorem State.Inv.of_agree (h : s.Inv)
    (hbuffer : ∀ k, SameBuffer (s.mgr.pool k) (t.mgr.pool k))
    (hinits : t.inits = s.inits)
    (hblocks : ∀ b, b ≠ a → t.mgr.blocks b = s.mgr.blocks b)
    (hhanded : ∀ b, b ≠ a → t.handed b = s.handed b)
    (hheader : ∀ k, (s.mgr.pool k).pBuf = none → (t.mgr.pool k).pHeader = none)
    (hareas : ∀ q ∈ s.areas, q ∈ t.areas ∨ q.start = a ∧ ∀ k, ¬ s.IsBlock k a)
    (hapart : t.areas.Pairwise Area.Apart)
    (hchained : ∀ k, Chained t k)
    (hblock : ∀ k, s.IsBlock k a → BlockOk t k a)
    (hown : ∀ r, t.handed a = some r → HandedOk t a r) : t.Inv := by
  have hiff (k : Pool) (b : ℕ) : t.IsBlock k b ↔ s.IsBlock k b := isBlock_congr (hbuffer k)
  refine ⟨?_, ?_, ?_, ?_, ?_, hchained, ?_, ?_, hapart⟩
  · intro k
    rw [(hbuffer k).nBlockLen]
    exact h.len k
  · intro k
    rw [(hbuffer k).nSize, (hbuffer k).nBlockLen]
    exact h.fits k
  · intro k
    rw [(hbuffer k).pBuf]
    exact hheader k
  · intro k
    rw [(hbuffer k).pBuf, hinits]
    exact h.inits k
  · intro k p hp
    rw [(hbuffer k).pBuf] at hp
    have hsize : (t.mgr.pool k).bufSize = (s.mgr.pool k).bufSize := by
      rw [MemoryAlloc.bufSize, MemoryAlloc.bufSize, (hbuffer k).nSize, (hbuffer k).nBlockLen]
    rw [hsize]
    rcases hareas _ (h.buffer k p hp) with hin | ⟨rfl, hno⟩
    · exact hin
    · exact absurd (h.isBlock_buffer hp) (hno k)
  · intro k b hb
    have hb' := (hiff k b).mp hb
    by_cases hba : b = a
    · exact hba ▸ hblock k (hba ▸ hb')
    · exact (h.block k b hb').congr (hblocks b hba) (hhanded b hba)
  · intro b r hr
    by_cases hba : b = a
    · exact hba ▸ hown r (hba ▸ hr)
    · rw [hhanded b hba] at hr
      rcases h.handed b r hr with ⟨k, hk, hb⟩ | ⟨hmalloc, hok⟩
      · exact .inl ⟨k, hk, (hiff k b).mpr hb⟩
      · refine .inr ⟨hmalloc, ?_, ?_, ?_, hok.large⟩
        · rcases hareas _ hok.area with hin | ⟨heq, -⟩
          · exact hin
          · exact absurd heq hba
        · rw [hblocks b hba]
          exact hok.bPool
        · rw [hblocks b hba]
          exact hok.nRef

/-- A block changes, and the pools stay as they are. -/
theorem State.Inv.of_pool_eq (h : s.Inv) (hpool : ∀ k, t.mgr.pool k = s.mgr.pool k)
    (hinits : t.inits = s.inits)
    (hblocks : ∀ b, b ≠ a → t.mgr.blocks b = s.mgr.blocks b)
    (hhanded : ∀ b, b ≠ a → t.handed b = s.handed b)
    (hareas : ∀ q ∈ s.areas, q ∈ t.areas ∨ q.start = a ∧ ∀ k, ¬ s.IsBlock k a)
    (hapart : t.areas.Pairwise Area.Apart)
    (hheld : ∀ k, s.IsBlock k a → s.handed a ≠ none ∧ t.handed a ≠ none)
    (hblock : ∀ k, s.IsBlock k a → BlockOk t k a)
    (hown : ∀ r, t.handed a = some r → HandedOk t a r) : t.Inv := by
  have hbuffer (k : Pool) : SameBuffer (s.mgr.pool k) (t.mgr.pool k) := by
    rw [hpool k]
    exact .refl _
  refine h.of_agree hbuffer hinits hblocks hhanded (fun k hk => ?_) hareas hapart (fun k => ?_)
    hblock hown
  · rw [hpool k]
    exact h.header k hk
  · exact h.chained_of_agree (hbuffer k) (congrArg MemoryAlloc.pHeader (hpool k)) hblocks hhanded
      (hheld k)

/-- A block of pool `k` changes, and with it the front of the list of `k`. -/
theorem State.Inv.of_front (h : s.Inv) (hat : s.IsBlock k a)
    (hbuffer : SameBuffer (s.mgr.pool k) (t.mgr.pool k))
    (hpool : ∀ k', k' ≠ k → t.mgr.pool k' = s.mgr.pool k')
    (hinits : t.inits = s.inits) (hareas : t.areas = s.areas)
    (hblocks : ∀ b, b ≠ a → t.mgr.blocks b = s.mgr.blocks b)
    (hhanded : ∀ b, b ≠ a → t.handed b = s.handed b)
    (hchained : Chained t k) (hblock : BlockOk t k a)
    (hown : ∀ r, t.handed a = some r → HandedOk t a r) : t.Inv := by
  have hbuffers (k' : Pool) : SameBuffer (s.mgr.pool k') (t.mgr.pool k') := by
    by_cases hkk : k' = k
    · rw [hkk]
      exact hbuffer
    · rw [hpool k' hkk]
      exact .refl _
  refine h.of_agree hbuffers hinits hblocks hhanded (fun k' hk' => ?_)
    (fun q hq => .inl (hareas ▸ hq)) (hareas ▸ h.apart) (fun k' => ?_) (fun k' hk' => ?_) hown
  · by_cases hkk : k' = k
    · -- a pool with a block has its buffer
      obtain ⟨p, n, hp, -⟩ := hat
      rw [hkk, hp] at hk'
      cases hk'
    · rw [hpool k' hkk]
      exact h.header k' hk'
  · by_cases hkk : k' = k
    · rw [hkk]
      exact hchained
    · exact h.chained_of_agree (hbuffers k') (congrArg MemoryAlloc.pHeader (hpool k' hkk)) hblocks
        hhanded fun hk' => absurd (h.pool_unique hk' hat) hkk
  · obtain rfl := h.pool_unique hat hk'
    exact hblock

/-! ## References -/

variable {nRef : ℤ} {h' : Option Handed}

/-- A call that counts references to a block that is handed out, and does not give it back,
changes the block alone. -/
theorem State.Inv.setRef (h : s.Inv) (hr : s.handed a = some r) {r' : Handed}
    (horigin : r'.origin = r.origin) (hsize : r'.nSize = r.nSize)
    (hcount : nRef - (s.mgr.blocks a).nRef = (r'.addRefs - r'.frees) - (r.addRefs - r.frees))
    (hle : r.frees ≤ r.addRefs → ¬ r.origin = .fallback → r'.frees ≤ r'.addRefs) :
    State.Inv { s with
      mgr := s.mgr.setRef a nRef
      handed := Function.update s.handed a (some r') } := by
  have hpool (k : Pool) : (s.mgr.setRef a nRef).pool k = s.mgr.pool k := MemoryMgr.pool_setRef
  refine h.of_pool_eq (a := a) hpool rfl (fun b hba => MemoryMgr.setRef_blocks_of_ne hba)
    (fun b hba => Function.update_of_ne hba _ _) (fun q hq => .inl hq) h.apart
    (fun _ _ => ⟨by simp [hr], by simp⟩) (fun k hk => ?_) fun r'' hr'' => ?_
  · have hok := h.block k a hk
    obtain ⟨hk', hheld, hserves⟩ := hok.handed r hr
    have hnRef := hok.nRef
    rw [hr] at hnRef
    refine ⟨?_, ?_, ?_, ?_⟩
    · rw [MemoryMgr.setRef_blocks]
      exact hok.bPool
    · rw [MemoryMgr.setRef_blocks]
      exact hok.pAlloc
    · rw [MemoryMgr.setRef_blocks]
      dsimp only
      rw [Function.update_self]
      simp only [refs, Option.elim_some] at hnRef ⊢
      omega
    · intro r'' hr''
      dsimp only at hr''
      rw [Function.update_self, Option.some.injEq] at hr''
      rw [← hr'', horigin, hsize]
      exact ⟨hk', hle hheld (by rw [hk']; exact nofun), hserves⟩
  · dsimp only at hr''
    rw [Function.update_self, Option.some.injEq] at hr''
    rw [← hr'']
    rcases h.handed a r hr with ⟨k, hk, hblock⟩ | ⟨hmalloc, hok⟩
    · refine .inl ⟨k, horigin.trans hk, (isBlock_congr ?_).mpr hblock⟩
      rw [hpool k]
      exact .refl _
    · refine .inr ⟨fun k => by rw [horigin]; exact hmalloc k, ?_, ?_, ?_, fun hlarge => ?_⟩
      · rw [hsize]
        exact hok.area
      · rw [MemoryMgr.setRef_blocks]
        exact hok.bPool
      · have hnRef := hok.nRef
        rw [MemoryMgr.setRef_blocks, horigin]
        dsimp only
        omega
      · rw [horigin] at hlarge
        exact hle (hok.large hlarge) (by rw [hlarge]; decide)

/-- A call of `addRef`. -/
theorem State.Inv.addRef (h : s.Inv) (hstep : step s (.addRef a) = some t) : t.Inv := by
  obtain ⟨r, g, hr, -, hg, rfl⟩ := step_addRef hstep
  rw [MemoryMgr.addRef_eq_some hg]
  refine h.setRef hr rfl rfl ?_ fun hle _ => Nat.le_succ_of_le hle
  push_cast
  omega

/-! ## Freeing -/

/-- A block that is handed out is not in front of a list. -/
theorem State.Inv.header_ne (h : s.Inv) (hr : s.handed a = some r) (k : Pool) :
    (s.mgr.pool k).pHeader ≠ some a := by
  intro hheader
  obtain ⟨l, hlinked, hl⟩ := h.chained k
  rw [hheader] at hlinked
  obtain ⟨l', rfl, -⟩ := hlinked.pop
  rw [((hl a).mp List.mem_cons_self).2] at hr
  cases hr

/-- The reference count of a block of a pool. -/
theorem State.Inv.nRef_pool (h : s.Inv) (hr : s.handed a = some r) (hk : r.origin = .pool k) :
    s.IsBlock k a ∧ (s.mgr.blocks a).nRef = 1 + r.addRefs - r.frees ∧ r.frees ≤ r.addRefs := by
  rcases h.handed a r hr with ⟨k', hk', hblock⟩ | ⟨hmalloc, -⟩
  · obtain rfl : k = k' := Origin.pool.inj (hk.symm.trans hk')
    have hok := h.block k a hblock
    have hnRef := hok.nRef
    rw [hr] at hnRef
    exact ⟨hblock, hnRef, (hok.handed r hr).2.1⟩
  · exact absurd hk (hmalloc k)

/-- The last reference to a block of a pool is given up. -/
theorem State.Inv.step_free_back (h : s.Inv) (hr : s.handed a = some r) (hk : r.origin = .pool k)
    (heq : r.frees = r.addRefs) : step s (.free a) =
      some { s with mgr := s.mgr.push k a, handed := Function.update s.handed a none } := by
  obtain ⟨hblock, hnRef, hle⟩ := h.nRef_pool hr hk
  have hok := h.block k a hblock
  have hback : s.mgr.GivenBack (s.mgr.push k a) none a r.origin := by
    rw [hk]
    exact ⟨h.header_ne hr k, by rw [MemoryMgr.pool_push]⟩
  simp only [step, hr, Option.bind_some, if_pos hle,
    MemoryMgr.freeMem_back hok.bPool hok.pAlloc (show (s.mgr.blocks a).nRef = 1 by omega),
    Option.map_some, State.afterFree, Option.elim_none, if_pos hback]

/-- Another reference to a block of a pool is given up. -/
theorem State.Inv.step_free_kept (h : s.Inv) (hr : s.handed a = some r) (hk : r.origin = .pool k)
    (hlt : r.frees < r.addRefs) : step s (.free a) = some { s with
      mgr := s.mgr.setRef a ((s.mgr.blocks a).nRef - 1)
      handed := Function.update s.handed a (some { r with frees := r.frees + 1 }) } := by
  obtain ⟨hblock, hnRef, hle⟩ := h.nRef_pool hr hk
  have hok := h.block k a hblock
  have hback : ¬ s.mgr.GivenBack (s.mgr.setRef a ((s.mgr.blocks a).nRef - 1)) none a r.origin := by
    rw [hk]
    rintro ⟨hne, hheader⟩
    rw [MemoryMgr.pool_setRef] at hheader
    exact hne hheader
  simp only [step, hr, Option.bind_some, if_pos hle,
    MemoryMgr.freeMem_kept hok.bPool hok.pAlloc (show (s.mgr.blocks a).nRef ≠ 1 by omega),
    Option.map_some, State.afterFree, Option.elim_none, if_neg hback]

/-- A block from `malloc` goes back to it when its count gets to zero. -/
theorem State.Inv.step_free_malloc (h : s.Inv) (hr : s.handed a = some r)
    (hmalloc : r.IsMalloc) (hle : r.frees ≤ r.addRefs) : step s (.free a) = some (
      if (s.mgr.blocks a).nRef = 1 then { s with
        mgr := s.mgr.setRef a 0
        areas := Area.release s.areas a
        handed := Function.update s.handed a none }
      else { s with
        mgr := s.mgr.setRef a ((s.mgr.blocks a).nRef - 1)
        handed := Function.update s.handed a (some { r with frees := r.frees + 1 }) }) := by
  have hok := h.mallocOk hr hmalloc
  have hback (g' : MemoryMgr) (freed : Option ℕ) :
      s.mgr.GivenBack g' freed a r.origin ↔ freed = some a := by
    cases horigin : r.origin with
    | pool k => exact absurd horigin (hmalloc k)
    | fallback => exact Iff.rfl
    | large => exact Iff.rfl
  simp only [step, hr, Option.bind_some, if_pos hle, MemoryMgr.freeMem_malloc hok.bPool,
    Option.map_some, State.afterFree, hback]
  by_cases hone : (s.mgr.blocks a).nRef = 1
  · simp [hone]
  · have hzero : (s.mgr.blocks a).nRef - 1 ≠ 0 := sub_ne_zero.mpr hone
    simp [hone, hzero]

/-- The block goes to the front of its pool's list. -/
theorem State.Inv.push (h : s.Inv) (hr : s.handed a = some r) (hk : r.origin = .pool k) :
    State.Inv { s with mgr := s.mgr.push k a, handed := Function.update s.handed a none } := by
  obtain ⟨hblock, -⟩ := h.nRef_pool hr hk
  have hok := h.block k a hblock
  have hbuffer : SameBuffer (s.mgr.pool k) ((s.mgr.push k a).pool k) := by
    rw [MemoryMgr.pool_push]
    exact ⟨rfl, rfl, rfl⟩
  refine h.of_front hblock hbuffer (fun k' hkk => MemoryMgr.pool_push_of_ne hkk) rfl rfl
    (fun b hba => MemoryMgr.push_blocks_of_ne hba) (fun b hba => Function.update_of_ne hba _ _)
    ?_ ?_ fun r' hr' => ?_
  · obtain ⟨l, hlinked, hl⟩ := h.chained k
    have hnot : a ∉ l := fun hal => by
      rw [((hl a).mp hal).2] at hr
      cases hr
    refine ⟨a :: l, ?_, ?_⟩
    · dsimp only
      rw [MemoryMgr.pool_push]
      refine hlinked.push hnot ?_ fun b hba => ?_
      · rw [State.next, MemoryMgr.push_blocks]
      · rw [State.next, MemoryMgr.push_blocks_of_ne hba]
        rfl
    · intro b
      refine Iff.trans ?_ (and_congr_left' (isBlock_congr hbuffer).symm)
      rw [List.mem_cons, hl b]
      by_cases hba : b = a
      · subst hba
        simp [hblock]
      · simp [hba]
  · refine ⟨?_, ?_, ?_, ?_⟩
    · rw [MemoryMgr.push_blocks]
      exact hok.bPool
    · rw [MemoryMgr.push_blocks]
      exact hok.pAlloc
    · simp [refs]
    · intro r' hr'
      simp at hr'
  · simp at hr'

/-- The block goes back to `malloc`. -/
theorem State.Inv.release (h : s.Inv) (hr : s.handed a = some r) (hmalloc : r.IsMalloc) :
    State.Inv { s with
      mgr := s.mgr.setRef a nRef
      areas := Area.release s.areas a
      handed := Function.update s.handed a none } := by
  have hno := h.not_isBlock hr hmalloc
  refine h.of_pool_eq (a := a) (fun k => MemoryMgr.pool_setRef) rfl
    (fun b hba => MemoryMgr.setRef_blocks_of_ne hba) (fun b hba => Function.update_of_ne hba _ _)
    (fun q hq => ?_) (Area.pairwise_release h.apart a) (fun k hk => absurd hk (hno k))
    (fun k hk => absurd hk (hno k)) fun r' hr' => ?_
  · by_cases hqa : q.start = a
    · exact .inr ⟨hqa, hno⟩
    · exact .inl (Area.mem_release.mpr ⟨hq, hqa⟩)
  · simp at hr'

/-- A call of `freeMem`. -/
theorem State.Inv.free (h : s.Inv) (hstep : step s (.free a) = some t) : t.Inv := by
  obtain ⟨r, -, -, -, hr, hle, -⟩ := step_free hstep
  rcases h.handed a r hr with ⟨k, hk, -⟩ | ⟨hmalloc, hok⟩
  · rcases Nat.lt_or_eq_of_le hle with hlt | heq
    · rw [h.step_free_kept hr hk hlt, Option.some.injEq] at hstep
      rw [← hstep]
      refine h.setRef hr rfl rfl ?_ fun _ _ => hlt
      push_cast
      omega
    · rw [h.step_free_back hr hk heq, Option.some.injEq] at hstep
      rw [← hstep]
      exact h.push hr hk
  · rw [h.step_free_malloc hr hmalloc hle, Option.some.injEq] at hstep
    rw [← hstep]
    split_ifs with hone
    · exact h.release hr hmalloc
    · refine h.setRef hr rfl rfl ?_ fun _ hne => ?_
      · push_cast
        omega
      · have hnRef := hok.nRef
        rw [if_neg hne] at hnRef
        dsimp only
        omega

end MemoryRun
end EasyTcpServer
