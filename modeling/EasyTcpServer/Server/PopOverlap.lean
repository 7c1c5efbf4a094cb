import EasyTcpServer.Lib.Shift
import EasyTcpServer.Server.RecvData
import EasyTcpServer.Buffer.MsgBufFraming

/-!
# The ranges of the `memcpy` in `pop`

`Cell_Buffer::pop` and the loop of `Client::RecvData` move what stands behind a message to the
front of the buffer, and both do it with `memcpy`.  `CellBuffer.pop` and `MsgBuf.shift` move the
bytes whatever the two ranges are.  `popMemcpy` and `shiftMemcpy` are the same functions with no
result where the library promises none.

The ranges overlap when the remainder is longer than the message in front of it.  A heartbeat has
four bytes, and three of them in one read are enough.  The machines go on behind such a copy as if
it had moved the bytes; so the first one of a run is the program's own.

* `movesDefined`: in a run of covering reads every copy is defined, and the copies of a call
  are all defined exactly when its read covers.
* `movesDefined_overlap`: three heartbeats in one read.
-/

namespace EasyTcpServer

/-! ## The copy -/

/-- No position is in the source, from `len` to `level`, and in the destination, from 0 on. -/
def RangesApart (level len : ℤ) : Prop :=
  ∀ x, len ≤ x ∧ x < level → ¬ (0 ≤ x ∧ x < level - len)

/-- The copy that removes a message of `len` bytes from a buffer filled up to `level`: its ranges
do not overlap, and `after`, the content it leaves, is what stood behind the message. -/
structure Moves (level len : ℤ) (content : List UInt8) (after : Option (List UInt8)) : Prop where
  apart : RangesApart level len
  intact : after = some (content.drop len.toNat)

theorem rangesApart_iff {level len : ℤ} (hlen : 0 < len) (hle : len ≤ level) :
    RangesApart level len ↔ level - len ≤ len := by
  constructor
  · intro h
    by_contra hover
    -- the first byte behind the message is overwritten, too
    exact h len ⟨le_refl len, by omega⟩ ⟨le_of_lt hlen, by omega⟩
  · rintro h x ⟨hx, -⟩ ⟨-, hx'⟩
    omega

/-- **When the copy is defined**: the remainder fits in the place of the message, provided the
copy is right in that case. -/
theorem moves_iff_fits {content : List UInt8} {level len : ℤ} {after : Option (List UInt8)}
    (hlevel : (content.length : ℤ) = level) (hlen : messageFormat.declared content = len)
    (hpos : 0 < len) (hle : len ≤ level)
    (hafter : level - len ≤ len → after = some (content.drop len.toNat)) :
    Moves level len content after ↔ messageFormat.Fits content := by
  have hfits : messageFormat.Fits content ↔ level - len ≤ len := by
    rw [Format.Fits, Format.size, hlen, List.length_drop]
    omega
  rw [hfits, ← rangesApart_iff hpos hle]
  exact ⟨fun hmoves => hmoves.apart,
    fun hapart => ⟨hapart, hafter ((rangesApart_iff hpos hle).mp hapart)⟩⟩

namespace CellBuffer

variable (b : CellBuffer)

/-- `pop(nLen)`, on what is promised of `memcpy`. -/
def popMemcpy (nLen : ℤ) : Option CellBuffer := do
  let n := b.nLast - nLen
  let mem ← (if 0 < n then Block.memcpy b.pBuff 0 nLen n else some b.pBuff)
  let count := if 0 < b.sendBuffFullCount then b.sendBuffFullCount - 1 else b.sendBuffFullCount
  return { b with pBuff := mem, nLast := n, sendBuffFullCount := count }

variable {b}

theorem popMemcpy_eq_pop {nLen : ℤ} (h : b.nLast - nLen ≤ nLen) :
    b.popMemcpy nLen = b.pop nLen := by
  dsimp only [popMemcpy, pop]
  rw [Block.memcpy_eq_copyWithin (.inl (by omega))]

/-- **When the copy of `pop` is defined.** -/
theorem Valid.moves_iff (h : b.Valid) (hmsg : b.hasMsg = true) (hpos : 0 < dataLength b.pBuff) :
    Moves b.nLast (dataLength b.pBuff) b.content
        ((b.popMemcpy (dataLength b.pBuff)).map content) ↔ messageFormat.Fits b.content := by
  have hlength := h.dataLength_content hmsg
  have hle : dataLength b.pBuff ≤ b.nLast := by
    rw [hlength, ← h.length_content]
    exact (h.hasMsg_iff.mp hmsg).2
  refine moves_iff_fits h.length_content hlength.symm hpos hle fun hfits => ?_
  obtain ⟨b', hpop, -, hcontent, -⟩ := h.pop_of_nonneg (le_of_lt hpos) hle
  rw [popMemcpy_eq_pop hfits, hpop, Option.map_some, hcontent]

end CellBuffer

namespace MsgBuf

variable (b : MsgBuf)

/-- The shift in the loop, on what is promised of `memcpy`. -/
def shiftMemcpy : Option MsgBuf := do
  let nSize := b.lastPos - dataLength b.szMsgBuf
  let mem ← Block.memcpy b.szMsgBuf 0 (dataLength b.szMsgBuf) nSize
  return ⟨mem, nSize⟩

variable {b}

theorem shiftMemcpy_eq_shift (h : b.lastPos - dataLength b.szMsgBuf ≤ dataLength b.szMsgBuf) :
    b.shiftMemcpy = b.shift := by
  dsimp only [shiftMemcpy, shift]
  rw [Block.memcpy_eq_copyWithin (.inl (by omega))]

/-- **When the copy of the loop is defined.** -/
theorem Valid.moves_iff (h : b.Valid) (hmsg : b.hasMsg = true)
    (hpos : 0 < dataLength b.szMsgBuf) :
    Moves b.lastPos (dataLength b.szMsgBuf) b.content (b.shiftMemcpy.map content) ↔
      messageFormat.Fits b.content := by
  have hlength := h.dataLength_content hmsg
  have hle : dataLength b.szMsgBuf ≤ b.lastPos := by
    rw [hlength, ← h.length_content]
    exact (h.hasMsg_iff.mp hmsg).2
  refine moves_iff_fits h.length_content hlength.symm hpos hle fun hfits => ?_
  obtain ⟨b', hshift, -, hcontent⟩ := h.shift_of_nonneg (le_of_lt hpos) hle
  rw [shiftMemcpy_eq_shift hfits, hshift, Option.map_some, hcontent]

end MsgBuf

/-! ## In front of a turn -/

/-- When the next turn of `recvData` calls `pop`, the copy there is defined. -/
def CellServer.RecvState.PopDefined (s : CellServer.RecvState) : Prop :=
  s.phase = .extract → s.client.hasMsg = true →
    Moves s.client.recvBuff.nLast (dataLength s.client.frontMsg) s.client.recvBuff.content
      ((s.client.recvBuff.popMemcpy (dataLength s.client.frontMsg)).map CellBuffer.content)

/-- When the next turn of the loop shifts, the copy is defined. -/
def MsgBuf.RecvState.ShiftDefined (s : MsgBuf.RecvState) : Prop :=
  s.phase = .extract → s.buf.hasMsg = true →
    Moves s.buf.lastPos (dataLength s.buf.szMsgBuf) s.buf.content
      (s.buf.shiftMemcpy.map MsgBuf.content)

theorem CellServer.popDefined_iff {N : ℕ} {s : CellServer.RecvState} (h : s.Good N)
    (hpos : messageFormat.HeadersSatisfy (0 < ·) s.client.recvBuff.content) :
    s.PopDefined ↔ s.abs.Fits messageFormat := by
  refine imp_congr_right fun _ => ?_
  have hmsg : s.client.hasMsg = true ↔ messageFormat.Complete s.abs.pending := h.valid.hasMsg_iff
  rw [← hmsg]
  refine imp_congr_right fun hfront => h.valid.moves_iff hfront ?_
  rw [h.valid.dataLength_content hfront]
  exact hpos.declared (hmsg.mp hfront).1

theorem MsgBuf.shiftDefined_iff {s : MsgBuf.RecvState} (h : s.buf.Valid)
    (hpos : messageFormat.HeadersSatisfy (0 < ·) s.buf.content) :
    s.ShiftDefined ↔ s.abs.Fits messageFormat := by
  refine imp_congr_right fun _ => ?_
  have hmsg : s.buf.hasMsg = true ↔ messageFormat.Complete s.abs.pending := h.hasMsg_iff
  rw [← hmsg]
  refine imp_congr_right fun hfront => h.moves_iff hfront ?_
  rw [h.dataLength_content hfront]
  exact hpos.declared (hmsg.mp hfront).1

/-! ## Runs and calls -/

section Machines

variable {σ ι : Type*}

/-- A read brings messages that cover what is behind them in the buffer.  Every other label is
allowed. -/
def Covered (read : List UInt8 → ι) (received : σ → List UInt8) (s : σ) (i : ι) : Prop :=
  ∀ chunk, i = read chunk → messageFormat.CoversRead (received s) chunk

/-- When the copies of a receiving side are defined, on a stream of well-formed messages. -/
structure MovesDefined (M : Machine σ ι) (turn : ι) (read : List UInt8 → ι)
    (received : σ → List UInt8) (defined : σ → Prop) : Prop where
  /-- In a run whose reads all cover, every copy is defined. -/
  runs : ∀ s, M.ReachWithin (Covered read received) s → messageFormat.WellFormed (received s) →
    defined s
  /-- A call makes defined copies alone exactly when its read covers. -/
  calls : ∀ s t i, M.Reachable s → i ≠ turn → M.step s i = some t →
    messageFormat.WellFormed (received t) →
      ((∀ k u, M.iterate turn k t = some u → defined u) ↔ Covered read received s i)

variable {M : Machine σ ι} {N : ℕ} (I : FramedReceiver.Implementation M messageFormat N)
  {read : List UInt8 → ι} {defined : σ → Prop}

theorem covered_iff (hread : ∀ chunk, I.act (read chunk) = .arrive chunk)
    (hother : ∀ i chunk, I.act i = .arrive chunk → i = read chunk ∨ chunk = []) (s : σ) (i : ι) :
    Covered read (fun u => (I.abs u).received) s i ↔
      FramedReceiver.Covered messageFormat (I.abs s) (I.act i) := by
  constructor
  · intro h
    cases hi : I.act i with
    | arrive chunk =>
      obtain rfl | rfl := hother i chunk hi
      · exact h chunk rfl
      · exact Format.coversRead_nil _
    | quit => exact trivial
    | turn => exact trivial
  · rintro h chunk rfl
    rwa [hread] at h

theorem movesDefined_of_implementation
    (hread : ∀ chunk, I.act (read chunk) = .arrive chunk)
    (hother : ∀ i chunk, I.act i = .arrive chunk → i = read chunk ∨ chunk = [])
    (hturn : ∀ i, I.act i = .turn → i = I.turn)
    (hdefined : ∀ s, I.Good s → messageFormat.HeadersSatisfy (0 < ·) (I.abs s).pending →
      (defined s ↔ (I.abs s).Fits messageFormat)) :
    MovesDefined M I.turn read (fun s => (I.abs s).received) defined := by
  have hheader : 0 < messageFormat.headerSize := by decide
  constructor
  · intro s hs hwell
    have hpos := hwell.headersPositive hheader
    have hpending := hpos.of_cuts (I.consistent hheader hs.reachable).cuts
    rw [hdefined s (I.toRefinement.reachable hs.reachable).1 hpending]
    exact I.fits_of_reachWithin hheader
      (hs.mono fun u i => (covered_iff I hread hother u i).mp) hpos
  · intro s t i hs hi hstep hwell
    have hpos := hwell.headersPositive hheader
    have ht := hs.next hstep
    have hpending := hpos.of_cuts (I.consistent hheader ht).cuts
    have hgood := (I.toRefinement.reachable ht).1
    rw [covered_iff I hread hother, ← I.fits_iff hheader (mt (hturn i) hi) hs hstep hpos]
    -- turns leave the headers that are still to come
    refine forall_congr' fun k => forall_congr' fun u => imp_congr_right fun hu => ?_
    obtain ⟨ns, hcuts⟩ := FramedReceiver.exists_cuts_of_iterate (I.iterate_eq_some hgood hu)
    exact hdefined u (I.toRefinement.good_iterate k hgood hu) (hpending.of_cuts hcuts)

end Machines

theorem CellServer.RecvAct.abs_eq_arrive {i : CellServer.RecvAct} {chunk : List UInt8}
    (h : i.abs = .arrive chunk) : i = .recv (.bytes chunk) ∨ chunk = [] := by
  cases i with
  | recv o =>
    cases o with
    | bytes => exact .inl (by cases h; rfl)
    | fail ret =>
      rw [abs] at h
      split_ifs at h
      exact .inr (by cases h; rfl)
  | full => exact .inr (by cases h; rfl)
  | turn => cases h

theorem CellServer.RecvAct.abs_eq_turn {i : CellServer.RecvAct} (h : i.abs = .turn) :
    i = .turn := by
  cases i with
  | recv o =>
    cases o with
    | bytes => cases h
    | fail ret =>
      rw [abs] at h
      split_ifs at h
  | full => cases h
  | turn => rfl

theorem MsgBuf.RecvAct.abs_eq_arrive {i : MsgBuf.RecvAct} {chunk : List UInt8}
    (h : i.abs = .arrive chunk) : i = .recv (.bytes chunk) := by
  cases i with
  | recv o =>
    cases o with
    | bytes => cases h; rfl
    | fail => cases h
  | turn => cases h

theorem MsgBuf.RecvAct.abs_eq_turn {i : MsgBuf.RecvAct} (h : i.abs = .turn) : i = .turn := by
  cases i with
  | recv o => cases o <;> cases h
  | turn => rfl

/-- **The copies of both receive functions.**  On a stream of well-formed messages they are
defined, and leave the remaining messages intact, in every run whose reads complete no message
that is shorter than all that stands behind it; and after any other read one of them is not. -/
theorem movesDefined (sendMem : Vector UInt8 sendBuffSize) (recvMem : Vector UInt8 recvBuffSize)
    (sockfd : Socket) (mem : Vector UInt8 msgBufSize) :
    MovesDefined (CellServer.newReceiver sendMem recvMem sockfd) .turn
        (fun chunk => .recv (.bytes chunk)) (·.received) CellServer.RecvState.PopDefined ∧
      MovesDefined (MsgBuf.clientRecvData mem) .turn
        (fun chunk => .recv (.bytes chunk)) (·.received) MsgBuf.RecvState.ShiftDefined :=
  ⟨movesDefined_of_implementation (CellServer.newReceiver.implementation sendMem recvMem sockfd)
      (fun _ => rfl) (fun _ _ => CellServer.RecvAct.abs_eq_arrive)
      (fun _ => CellServer.RecvAct.abs_eq_turn) fun _ => CellServer.popDefined_iff,
    movesDefined_of_implementation (MsgBuf.receiver.implementation mem)
      (fun _ => rfl) (fun _ _ h => .inl (MsgBuf.RecvAct.abs_eq_arrive h))
      (fun _ => MsgBuf.RecvAct.abs_eq_turn) fun _ => MsgBuf.shiftDefined_iff⟩

/-- A new connection after a first read that covers. -/
theorem exists_reachWithin_read (sendMem : Vector UInt8 sendBuffSize)
    (recvMem : Vector UInt8 recvBuffSize) (sockfd : Socket) {chunk : List UInt8}
    (hne : 1 ≤ chunk.length) (hle : chunk.length ≤ recvBuffSize)
    (hcovers : messageFormat.CoversRead [] chunk) :
    ∃ s, (CellServer.newReceiver sendMem recvMem sockfd).ReachWithin
        (Covered (fun chunk => CellServer.RecvAct.recv (.bytes chunk)) (·.received)) s ∧
      s.Good recvBuffSize ∧ s.abs = ⟨.extract, chunk, [], chunk⟩ := by
  let I := CellServer.newReceiver.implementation sendMem recvMem sockfd
  have hroom : (CellServer.newReceiver sendMem recvMem sockfd).init.client.recvBuff.room =
      recvBuffSize := by
    simp [CellServer.newReceiver, CellServer.receiver, CellClient.new, CellBuffer.new,
      CellBuffer.room]
  have hread : (CellServer.newReceiver sendMem recvMem sockfd).step
      (CellServer.newReceiver sendMem recvMem sockfd).init (.recv (.bytes chunk)) =
      some (CellServer.enter (CellServer.newReceiver sendMem recvMem sockfd).init
        (.bytes chunk)) := by
    refine if_pos ⟨rfl, ?_, hne, ?_⟩
    · rw [hroom]
      decide
    · rw [hroom]
      exact Int.ofNat_le.mpr hle
  obtain ⟨hgood, habs⟩ := I.step I.good_init hread
  rw [I.abs_init] at habs
  obtain ⟨-, -, ht⟩ := FramedReceiver.step_arrive_cases habs
  refine ⟨_, .step .init ?_ hread, hgood, ht⟩
  rintro _ ⟨⟩
  exact hcovers

/-- A `LoginOutResult` of eight bytes with a heartbeat of four bytes behind it, in one read. -/
theorem movesDefined_covering :
    ∃ s, (CellServer.newReceiver (.replicate _ 0) (.replicate _ 0) 3).ReachWithin
        (Covered (fun chunk => .recv (.bytes chunk)) (·.received)) s ∧
      s.phase = .extract ∧ s.client.hasMsg = true ∧ s.PopDefined := by
  let msgs : List (List UInt8) := [[8, 0, 3, 0, 0, 0, 0, 0], [4, 0, 6, 0]]
  have hmsgs : ∀ m ∈ msgs, messageFormat.Frame m := by
    simp only [msgs, List.forall_mem_cons]
    exact ⟨⟨by decide, by decide⟩, ⟨by decide, by decide⟩, List.forall_mem_nil _⟩
  obtain ⟨s, hs, hgood, habs⟩ := exists_reachWithin_read (.replicate _ 0) (.replicate _ 0) 3
    (show 1 ≤ msgs.flatten.length by decide) (by decide)
    ((Format.coversRead_flatten (by decide) hmsgs).mpr (by decide))
  have hreceived : s.received = msgs.flatten := congrArg (·.received) habs
  have hcontent : s.client.recvBuff.content = msgs.flatten := congrArg (·.pending) habs
  refine ⟨s, hs, congrArg (·.phase) habs, hgood.valid.hasMsg_iff.mpr ?_, ?_⟩
  · rw [hcontent]
    decide
  · exact (movesDefined (.replicate _ 0) (.replicate _ 0) 3 (.replicate _ 0)).1.runs s hs
      ⟨msgs, hmsgs, hreceived ▸ List.prefix_rfl⟩

/-- Three messages `Heart_C2S`, of four bytes each. -/
def threeHearts : List UInt8 := [4, 0, 6, 0, 4, 0, 6, 0, 4, 0, 6, 0]

theorem wellFormed_threeHearts : messageFormat.WellFormed threeHearts := by
  refine ⟨.replicate 3 [4, 0, 6, 0], fun m hm => ?_, ⟨[], rfl⟩⟩
  rw [List.eq_of_mem_replicate hm]
  exact ⟨by decide, by decide⟩

theorem not_fits_threeHearts :
    ¬ FramedReceiver.State.Fits messageFormat ⟨.extract, threeHearts, [], threeHearts⟩ := by
  intro h
  have hfits := h rfl (by decide)
  exact absurd hfits (by unfold Format.Fits; decide)

/-- **Three heartbeats in one read.**  Eight bytes are moved over four. -/
theorem movesDefined_overlap :
    ¬ (∀ s, (CellServer.newReceiver (.replicate _ 0) (.replicate _ 0) 3).Reachable s →
        messageFormat.WellFormed s.received → s.PopDefined) ∧
      ¬ ∀ s, (MsgBuf.clientRecvData (.replicate _ 0)).Reachable s →
        messageFormat.WellFormed s.received → s.ShiftDefined := by
  have hpos := wellFormed_threeHearts.headersPositive (by decide)
  constructor
  · intro h
    obtain ⟨s, hs, hgood, habs⟩ := CellServer.newReceiver.exists_reachable (.replicate _ 0)
      (.replicate _ 0) 3 (show 1 ≤ threeHearts.length by decide) (by decide)
      (Machine.iterate_zero _ _ _)
    have hreceived : s.received = threeHearts := congrArg (·.received) habs
    have hcontent : s.client.recvBuff.content = threeHearts := congrArg (·.pending) habs
    have hdefined := h s hs (hreceived ▸ wellFormed_threeHearts)
    rw [CellServer.popDefined_iff hgood (hcontent ▸ hpos), habs] at hdefined
    exact not_fits_threeHearts hdefined
  · intro h
    obtain ⟨s, hs, hvalid, habs⟩ := MsgBuf.receiver.exists_reachable (.replicate _ 0)
      (show 1 ≤ threeHearts.length by decide) (by decide) (Machine.iterate_zero _ _ _)
    have hreceived : s.received = threeHearts := congrArg (·.received) habs
    have hcontent : s.buf.content = threeHearts := congrArg (·.pending) habs
    have hdefined := h s hs (hreceived ▸ wellFormed_threeHearts)
    rw [MsgBuf.shiftDefined_iff hvalid (hcontent ▸ hpos), habs] at hdefined
    exact not_fits_threeHearts hdefined

end EasyTcpServer
