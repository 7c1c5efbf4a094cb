import EasyTcpServer.Pool.PoolLaw

/-!
# How much room a request gets

`allocMem` does its arithmetic in `size_t`.  A request of at most 128 bytes goes through the
table to a pool, and gets a block of the pool's unit size, or from `malloc` what it asked for
and a header.  A larger request is served by `malloc(nSize + sizeof(MemoryBlock))`, and this sum
wraps around for the last 32 values of `size_t`: the request succeeds, with a block of less than
32 bytes in all.

* `Gets`: the block a request gets, and how many bytes lie behind its header.
* `allocMem_room`: they are enough exactly when the sum does not wrap around, for every state
  of the pools and whatever `malloc` returns.  In runs in which it does not, the bytes are there:
  they lie in memory from `malloc`, apart from all other blocks.
-/

namespace EasyTcpServer
namespace MemoryMgr

variable (g : MemoryMgr) (malloc : ℕ → Option ℕ) (nSize : ℕ)

/-- The pool for a request, behind `initMemory` if that is called. -/
def prepared (k : Pool) : MemoryAlloc :=
  if (g.pool k).pBuf.isNone then ((g.pool k).initMemory k g.blocks malloc).1 else g.pool k

/-- A request gets the block at `a`, with so many bytes behind the header: the first block in the
list of its pool, with the pool's unit size, or else what `malloc` was asked for, less the
header. -/
inductive Gets (a : ℕ) : ℤ → Prop where
  | pool {k : Pool} : szAlloc nSize = some k → (g.prepared malloc k).pHeader = some a →
      Gets a (g.prepared malloc k).nSize
  | malloc : (∀ k, szAlloc nSize = some k → (g.prepared malloc k).pHeader = none) →
      malloc (addSizeT nSize sizeofMemoryBlock) = some a →
        Gets a ((addSizeT nSize sizeofMemoryBlock : ℤ) - sizeofMemoryBlock)

/-- The pools have the unit sizes that `MemoryMgr` is built with. -/
def Units : Prop := ∀ k, (g.pool k).nSize = (MemoryAlloc.new (unitSize k) (blockLen k)).nSize

variable {g malloc nSize} {g' : MemoryMgr} {pMem : ℕ} {k : Pool}

theorem prepared_nSize : (g.prepared malloc k).nSize = (g.pool k).nSize := by
  unfold prepared
  split_ifs
  · exact (MemoryRun.kept_initMemory k g.blocks malloc (g.pool k)).nSize
  · rfl

/-- A request to a pool. -/
theorem gets_takeBlock {m : MemoryAlloc} {blocks : Blocks} {r : MemoryAlloc × Blocks × ℕ}
    (h : szAlloc nSize = some k) (hm : g.prepared malloc k = m)
    (hr : m.takeBlock blocks malloc nSize = some r) :
    ∃ a n, r.2.2 = a + sizeofMemoryBlock ∧ g.Gets malloc nSize a n := by
  unfold MemoryAlloc.takeBlock at hr
  cases hheader : m.pHeader with
  | none =>
    rw [hheader] at hr
    obtain ⟨p, hp, rfl⟩ := Option.map_eq_some_iff.mp hr
    refine ⟨p, _, rfl, .malloc (fun k' hk' => ?_) hp⟩
    obtain rfl : k = k' := Option.some.inj (h.symm.trans hk')
    rw [hm, hheader]
  | some a =>
    rw [hheader] at hr
    obtain rfl := Option.some.inj hr
    exact ⟨a, _, rfl, .pool h (by rw [hm, hheader])⟩

/-- **Where the block of a request comes from.** -/
theorem gets_of_allocMem (h : g.allocMem malloc nSize = some (g', some pMem)) :
    ∃ a n, pMem = a + sizeofMemoryBlock ∧ g.Gets malloc nSize a n := by
  unfold allocMem at h
  by_cases hsize : nSize ≤ maxMemorySize
  · rw [if_pos hsize] at h
    obtain ⟨k, hk, h⟩ := Option.bind_eq_some_iff.mp h
    obtain ⟨r, hr, heq⟩ := Option.map_eq_some_iff.mp h
    obtain rfl : r.2.2 = pMem := Option.some.inj (congrArg Prod.snd heq)
    unfold MemoryAlloc.allocMemory at hr
    by_cases hbuf : (g.pool k).pBuf.isNone = true
    · rw [if_pos hbuf] at hr
      exact gets_takeBlock hk (if_pos hbuf) hr
    · rw [if_neg hbuf] at hr
      exact gets_takeBlock hk (if_neg hbuf) hr
  · rw [if_neg hsize] at h
    have hlarge : szAlloc nSize = none := szAlloc_eq_none_iff.mpr (not_le.mp hsize)
    cases hp : malloc (addSizeT nSize sizeofMemoryBlock) with
    | none =>
      rw [hp] at h
      cases h
    | some p =>
      rw [hp] at h
      obtain rfl : p + sizeofMemoryBlock = pMem :=
        Option.some.inj (congrArg Prod.snd (Option.some.inj h))
      refine ⟨p, _, rfl, .malloc (fun k hk => ?_) hp⟩
      rw [hlarge] at hk
      cases hk

/-- The units are not shorter than the requests the table sends to the pool. -/
theorem Units.le (hunits : g.Units) (h : szAlloc nSize = some k) : nSize ≤ (g.pool k).nSize := by
  refine (MemoryRun.le_unitSize h).trans ?_
  rw [hunits k]
  cases k <;> decide

/-- The sum with the header wraps around for the last 32 values of `size_t` only. -/
theorem le_addSizeT_sub_iff (h64 : nSize < 2 ^ 64) :
    (nSize : ℤ) ≤ (addSizeT nSize sizeofMemoryBlock : ℤ) - sizeofMemoryBlock ↔
      nSize + sizeofMemoryBlock < 2 ^ 64 := by
  unfold addSizeT sizeofMemoryBlock
  omega

/-- **Which requests get enough.** -/
theorem Gets.le_iff (hunits : g.Units) (h64 : nSize < 2 ^ 64) {a : ℕ} {n : ℤ}
    (h : g.Gets malloc nSize a n) : (nSize : ℤ) ≤ n ↔ nSize + sizeofMemoryBlock < 2 ^ 64 := by
  cases h with
  | pool hk _ =>
    have hle := hunits.le hk
    have hsmall := le_of_szAlloc hk
    rw [prepared_nSize]
    unfold maxMemorySize at hsmall
    unfold sizeofMemoryBlock
    exact iff_of_true (Int.ofNat_le.mpr hle) (by omega)
  | malloc _ _ => exact le_addSizeT_sub_iff h64

end MemoryMgr

namespace MemoryRun

open MemoryMgr (unitSize blockLen)

variable {s t : State} {blocks : Blocks}

/-- So many bytes behind the header at `a` lie, with the header, in memory from `malloc`, and
apart from every other block. -/
structure Reserved (t : State) (a nSize : ℕ) : Prop where
  area : ∃ q ∈ t.areas, (headerArea a).Within q ∧ (userArea a nSize).Within q
  apart : ∀ b m, t.Block b m → a ≠ b →
    (userArea a nSize).Apart (userArea b m) ∧ (userArea a nSize).Apart (headerArea b)

theorem userArea_mono {a m n : ℕ} (h : m ≤ n) : (userArea a m).Within (userArea a n) := by
  unfold Area.Within userArea
  dsimp only
  omega

/-- What is handed out for a request is a block with enough room. -/
theorem State.Inv.exists_block (h : s.Inv) (hunits : s.mgr.Units) {a : ℕ} {r : Handed}
    (hr : s.handed a = some r) : ∃ n, r.nSize ≤ n ∧ s.Block a n := by
  rcases h.handed a r hr with ⟨k, -, hk⟩ | ⟨hmalloc, -⟩
  · exact ⟨_, hunits.le ((h.block k a hk).handed r hr).2.2, .pool hk⟩
  · exact ⟨_, le_refl _, .malloc hr hmalloc⟩

theorem State.Inv.reserved (h : s.Inv) (hunits : s.mgr.Units) {a : ℕ} {r : Handed}
    (hr : s.handed a = some r) : Reserved s a r.nSize := by
  obtain ⟨n, hle, hblock⟩ := h.exists_block hunits hr
  obtain ⟨q, hq, hwithin, -⟩ := h.owner hblock
  have huser : (userArea a r.nSize).Within ⟨a, n + sizeofMemoryBlock⟩ :=
    (userArea_mono hle).trans (userArea_within a n)
  refine ⟨⟨q, hq, (headerArea_within a n).trans hwithin, huser.trans hwithin⟩,
    fun b m hb hne => ?_⟩
  have hapart := h.extent_apart hblock hb hne
  exact ⟨hapart.of_within huser (userArea_within b m),
    hapart.of_within huser (headerArea_within b m)⟩

theorem units_of_reach {ok : State → Act → Prop}
    (h : (memoryRun unitSize blockLen blocks).ReachWithin ok s) : s.mgr.Units :=
  fun k => (sized_of_reach h k).1

/-- **How much room a request gets.**  For every request, every state of the pools and every
`malloc`: the address returned has enough bytes behind the header exactly when the size of the
request and of a header fits a `size_t`.  In a run in which all requests fit, these bytes are
memory of that block alone. -/
theorem allocMem_room (blocks : Blocks) (nSize : ℕ) (h64 : nSize < 2 ^ 64) :
    (∀ (g g' : MemoryMgr) (malloc : ℕ → Option ℕ) (pMem : ℕ), g.Units →
      g.allocMem malloc nSize = some (g', some pMem) →
        ∃ a n, pMem = a + sizeofMemoryBlock ∧ g.Gets malloc nSize a n ∧
          ((nSize : ℤ) ≤ n ↔ nSize + sizeofMemoryBlock < 2 ^ 64)) ∧
      ∀ s p t, (memoryRun unitSize blockLen blocks).ReachWithin (fun _ i => Fits i) s →
        nSize + sizeofMemoryBlock < 2 ^ 64 → step s (.alloc nSize p) = some t →
          s.mgr.Units ∧ ∃ a, t.handed a = some ⟨s.serial, nSize, s.mgr.origin nSize, 0, 0⟩ ∧
            Reserved t a nSize := by
  refine ⟨fun g g' malloc pMem hunits h => ?_, fun s p t hs hfits hstep => ?_⟩
  · obtain ⟨a, n, hpMem, hgets⟩ := MemoryMgr.gets_of_allocMem h
    exact ⟨a, n, hpMem, hgets, hgets.le_iff hunits h64⟩
  · have hbuffers : BuffersFit unitSize blockLen := fun k => by cases k <;> decide
    have hlen : ∀ k, 1 ≤ blockLen k := fun k => by cases k <;> decide
    have hreach : (memoryRun unitSize blockLen blocks).ReachWithin (fun _ i => Fits i) t :=
      hs.step (i := .alloc nSize p) hfits hstep
    have hinv : t.Inv := inv_of_reach hlen hbuffers (fun _ _ hi => hi) hreach
    obtain ⟨g, pMem, -, -, rfl⟩ := step_alloc hstep
    have hr : (s.afterAlloc nSize p g pMem).handed (pMem - sizeofMemoryBlock) =
        some ⟨s.serial, nSize, s.mgr.origin nSize, 0, 0⟩ := by
      rw [handed_afterAlloc, Function.update_self]
    exact ⟨units_of_reach hs, _, hr, hinv.reserved (units_of_reach hreach) hr⟩

/-- A request of 200 bytes, when `malloc` returns the address 9000. -/
theorem allocMem_room_two_hundred :
    ∃ a n, 9032 = a + sizeofMemoryBlock ∧
      (MemoryMgr.new noBlocks).Gets (fun _ => some 9000) 200 a n ∧
      ((200 : ℕ) : ℤ) ≤ n := by
  obtain ⟨a, n, hpMem, hgets, hiff⟩ := (allocMem_room noBlocks 200 (by decide)).1
    (MemoryMgr.new noBlocks) _ (fun _ => some 9000) 9032 (fun k => by cases k <;> rfl) rfl
  exact ⟨a, n, hpMem, hgets, hiff.mpr (by decide)⟩

/-- A request of `2 ^ 64 - 1` bytes: `malloc` is asked for 31. -/
theorem allocMem_room_wraps :
    ¬ ∀ (g g' : MemoryMgr) (malloc : ℕ → Option ℕ) (nSize pMem : ℕ), g.Units → nSize < 2 ^ 64 →
      g.allocMem malloc nSize = some (g', some pMem) →
        ∃ a n, pMem = a + sizeofMemoryBlock ∧ g.Gets malloc nSize a n ∧ (nSize : ℤ) ≤ n := by
  intro hall
  obtain ⟨a, n, -, hgets, hle⟩ := hall (MemoryMgr.new noBlocks) _ (fun _ => some 9000)
    (2 ^ 64 - 1) 9032 (fun k => by cases k <;> rfl) (by decide) rfl
  have hfits := (hgets.le_iff (fun k => by cases k <;> rfl) (by decide)).mp hle
  exact absurd hfits (by decide)

end MemoryRun
end EasyTcpServer
