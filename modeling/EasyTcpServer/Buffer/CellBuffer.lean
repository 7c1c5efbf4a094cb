import EasyTcpServer.Lib.Block
import EasyTcpServer.Message.DataHeader

/-!
# `Cell_Buffer`

The buffer class used on both directions of a connection.  A block `_pBuff` of `_nSize`
bytes is filled from the front; `_nLast` is the fill level.  The fields are the source's,
with the C type `int` of `_nLast`, `_nSize` and the counter as `ℤ`.

Three places where C decides something that the line of source does not show:

* In `hasMsg` the comparison `_nLast >= sizeof(DataHeader)` is made in `size_t`, so a
  negative `_nLast` would count as a very large number.  The next comparison, with
  `dataLength`, is a signed one.
* `push` adds `_nLast + nLen` in `int`.  A sum past `INT_MAX` has no defined value.
* A `memcpy` outside the block has no defined result.

A function that may reach one of the last two returns an `Option`, and `none` stands for
undefined behaviour.  What `delete` does to the message is not a matter of the buffer, so
`push` reports the accesses it makes to the message next to its return value.
-/

namespace EasyTcpServer

/-- `INT_MAX`. -/
def intMax : ℤ := 2147483647

/-- The value of an `int` after conversion to `size_t`. -/
def toSizeT (n : ℤ) : ℕ := (n % 2 ^ 64).toNat

theorem toSizeT_of_nonneg {n : ℤ} (h : 0 ≤ n) (hle : n ≤ intMax) : toSizeT n = n.toNat := by
  unfold intMax at hle
  unfold toSizeT
  omega

/-- What code does to a message through a pointer to it. -/
inductive Access where
  /-- The bytes of the message are read. -/
  | read
  /-- `delete` is applied to the pointer. -/
  | release
  deriving DecidableEq, Repr

/-- What `recv` reports. -/
inductive Recv where
  /-- Bytes were placed in the buffer. -/
  | bytes (chunk : List UInt8)
  /-- A return value of zero (the peer has closed) or less (an error). -/
  | fail (ret : ℤ)
  deriving DecidableEq, Repr

/-- What `recv` may report when it is asked for at most `room` bytes. -/
def Recv.Legal (room : ℤ) : Recv → Prop
  | .bytes chunk => 1 ≤ chunk.length ∧ chunk.length ≤ room
  | .fail ret => ret ≤ 0

instance (room : ℤ) (o : Recv) : Decidable (o.Legal room) := by
  cases o <;> unfold Recv.Legal <;> infer_instance

/-- The bytes that came in. -/
def Recv.received : Recv → List UInt8
  | .bytes chunk => chunk
  | .fail _ => []

structure CellBuffer where
  /-- The block, all `_nSize` bytes of it. -/
  pBuff : List UInt8
  /-- The fill level. -/
  nLast : ℤ
  nSize : ℤ
  sendBuffFullCount : ℤ
  deriving DecidableEq, Repr

/-- The result of `push`: its return value, the buffer, and what it did to the message. -/
structure PushResult where
  ret : Bool
  buff : CellBuffer
  accesses : List Access
  deriving DecidableEq, Repr

namespace CellBuffer

/-- The constructor.  The block comes from `new char[nSize]` and holds whatever it held. -/
def new {nSize : ℕ} (mem : Vector UInt8 nSize) : CellBuffer := ⟨mem.toList, 0, nSize, 0⟩

variable (b : CellBuffer)

/-- `push(pData, nLen)`, where `pData` is a null pointer or points to some bytes. -/
def push (pData : Option (List UInt8)) (nLen : ℤ) : Option PushResult :=
  match pData with
  | none => some ⟨false, b, []⟩
  | some msg =>
    if intMax < b.nLast + nLen then none
    else if b.nLast + nLen ≤ b.nSize then do
      let bytes ← Block.read msg 0 nLen
      let mem ← Block.write b.pBuff b.nLast bytes
      let nLast := b.nLast + nLen
      let count := if nLast = b.nSize then b.sendBuffFullCount + 1 else b.sendBuffFullCount
      return ⟨true, { b with pBuff := mem, nLast := nLast, sendBuffFullCount := count },
        [.read, .release]⟩
    else
      some ⟨false, { b with sendBuffFullCount := b.sendBuffFullCount + 1 }, [.release]⟩

/-- Whether `Write_to_Socket` calls `send`: there is something to send and a socket. -/
def wantsSend (valid : Bool) : Bool := 0 < b.nLast && valid

/-- `Write_to_Socket(sockfd)` when `send` reports `r`: the return value and the buffer.
`valid` says whether `sockfd` differs from `INVALID_SOCKET`. -/
def writeToSocket (valid : Bool) (r : ℤ) : ℤ × CellBuffer :=
  if b.wantsSend valid then (r, { b with nLast := 0, sendBuffFullCount := 0 }) else (0, b)

/-- The bytes `send` is given. -/
def sendRange : List UInt8 := b.pBuff.take b.nLast.toNat

/-- How many bytes `Read_for_Socket` asks `recv` for; it does not call `recv` for none. -/
def room : ℤ := b.nSize - b.nLast

/-- `Read_for_Socket(sockfd)` when `recv` reports `o`: the return value and the buffer. -/
def readForSocket (o : Recv) : Option (ℤ × CellBuffer) :=
  if 0 < b.room then
    match o with
    | .bytes chunk => do
      let mem ← Block.write b.pBuff b.nLast chunk
      return ((chunk.length : ℤ), { b with pBuff := mem, nLast := b.nLast + chunk.length })
    | .fail ret => some (ret, b)
  else some (0, b)

/-- `hasMsg()`. -/
def hasMsg : Bool :=
  if sizeofDataHeader ≤ toSizeT b.nLast then dataLength b.pBuff ≤ b.nLast else false

/-- `data()`: the pointer to the front of the block, read as the bytes behind it. -/
def data : List UInt8 := b.pBuff

/-- `pop(nLen)`. -/
def pop (nLen : ℤ) : Option CellBuffer := do
  let n := b.nLast - nLen
  let mem ← (if 0 < n then Block.copyWithin b.pBuff 0 nLen n else some b.pBuff)
  let count := if 0 < b.sendBuffFullCount then b.sendBuffFullCount - 1 else b.sendBuffFullCount
  return { b with pBuff := mem, nLast := n, sendBuffFullCount := count }

end CellBuffer

/-- The test for a message at the front of a block that is filled up to `level` is the test of
the framing format. -/
theorem test_iff_complete {mem : List UInt8} {level : ℤ} (hnonneg : 0 ≤ level)
    (hmax : level ≤ intMax) (hlevel : ((mem.take level.toNat).length : ℤ) = level) :
    (if sizeofDataHeader ≤ toSizeT level then decide (dataLength mem ≤ level) else false) = true ↔
      messageFormat.Complete (mem.take level.toNat) := by
  have hsize : toSizeT level = (mem.take level.toNat).length := by
    rw [toSizeT_of_nonneg hnonneg hmax]
    omega
  rw [hsize, Format.Complete, messageFormat_headerSize, messageFormat_declared]
  by_cases hheader : sizeofDataHeader ≤ (mem.take level.toNat).length
  · have hlen : dataLength (mem.take level.toNat) = dataLength mem := dataLength_take hheader
    simp only [hheader, if_true, decide_eq_true_eq, hlen, hlevel]
    exact ⟨fun hle => ⟨hheader, hle⟩, fun hle => hle.2⟩
  · simp only [hheader, if_false, Bool.false_eq_true, false_iff, not_and]
    exact fun hge => absurd hge hheader

namespace CellBuffer

variable (b : CellBuffer)

/-! ## Valid buffers -/

/-- What the class means its fields to be. -/
structure Valid : Prop where
  length_pBuff : (b.pBuff.length : ℤ) = b.nSize
  nLast_nonneg : 0 ≤ b.nLast
  nLast_le : b.nLast ≤ b.nSize
  nSize_le : b.nSize ≤ intMax

/-- The bytes the buffer holds. -/
def content : List UInt8 := b.pBuff.take b.nLast.toNat

theorem valid_new {nSize : ℕ} (mem : Vector UInt8 nSize) (h : (nSize : ℤ) ≤ intMax) :
    (new mem).Valid := by
  refine ⟨?_, le_refl _, ?_, h⟩
  · simp [new]
  · simp [new]

@[simp] theorem content_new {nSize : ℕ} (mem : Vector UInt8 nSize) : (new mem).content = [] := by
  simp [content, new]

variable {b} {b' : CellBuffer}

theorem Valid.length_content (h : b.Valid) : (b.content.length : ℤ) = b.nLast := by
  have hlen := h.length_pBuff
  have hnonneg := h.nLast_nonneg
  have hle := h.nLast_le
  unfold content
  rw [List.length_take]
  omega

/-! ### Receiving -/

/-- **What a successful read does**: the chunk is appended to the content. -/
theorem Valid.readForSocket_bytes (h : b.Valid) {chunk : List UInt8} (hroom : 0 < b.room)
    (hchunk : (chunk.length : ℤ) ≤ b.room) :
    ∃ b', b.readForSocket (.bytes chunk) = some ((chunk.length : ℤ), b') ∧ b'.Valid ∧
      b'.content = b.content ++ chunk ∧ b'.nSize = b.nSize := by
  have hlen := h.length_pBuff
  have hnonneg := h.nLast_nonneg
  have hroom' : b.room = b.nSize - b.nLast := rfl
  obtain ⟨mem, hmem⟩ : ∃ mem, Block.write b.pBuff b.nLast chunk = some mem :=
    ⟨_, Block.write_eq_some hnonneg (by omega)⟩
  obtain ⟨hlength, htake⟩ := Block.write_spec hmem
  refine ⟨{ b with pBuff := mem, nLast := b.nLast + chunk.length }, ?_, ?_, ?_, rfl⟩
  · simp [readForSocket, hroom, hmem]
  · refine ⟨?_, ?_, ?_, h.nSize_le⟩
    · simpa [hlength] using hlen
    · show 0 ≤ b.nLast + chunk.length
      omega
    · show b.nLast + chunk.length ≤ b.nSize
      omega
  · show mem.take (b.nLast + chunk.length).toNat = b.pBuff.take b.nLast.toNat ++ chunk
    rw [← htake]
    congr 1
    omega

/-- The test of `hasMsg` is the test of the framing format. -/
theorem Valid.hasMsg_iff (h : b.Valid) : b.hasMsg = true ↔ messageFormat.Complete b.content :=
  test_iff_complete h.nLast_nonneg (le_trans h.nLast_le h.nSize_le) h.length_content

theorem Valid.dataLength_content (h : b.Valid) (hmsg : b.hasMsg = true) :
    dataLength b.pBuff = messageFormat.declared b.content :=
  (dataLength_take (h.hasMsg_iff.mp hmsg).1).symm

/-- **What `pop` does to a complete message**: it is cut off the content. -/
theorem Valid.pop_of_nonneg (h : b.Valid) {nLen : ℤ} (hnonneg : 0 ≤ nLen)
    (hle : nLen ≤ b.nLast) :
    ∃ b', b.pop nLen = some b' ∧ b'.Valid ∧ b'.content = b.content.drop nLen.toNat ∧
      b'.nSize = b.nSize := by
  have hlen := h.length_pBuff
  have hlast := h.nLast_le
  -- the bytes behind the message, moved to the front if there are any
  obtain ⟨mem, hmem, hlength, htake⟩ : ∃ mem,
      (if 0 < b.nLast - nLen then Block.copyWithin b.pBuff 0 nLen (b.nLast - nLen)
        else some b.pBuff) = some mem ∧ mem.length = b.pBuff.length ∧
      mem.take (b.nLast - nLen).toNat =
        (b.pBuff.drop nLen.toNat).take (b.nLast - nLen).toNat := by
    by_cases hpos : 0 < b.nLast - nLen
    · rw [if_pos hpos]
      exact Block.copyWithin_front hnonneg (by omega) (by omega)
    · have hzero : (b.nLast - nLen).toNat = 0 := by omega
      refine ⟨b.pBuff, by rw [if_neg hpos], rfl, ?_⟩
      rw [hzero, List.take_zero, List.take_zero]
  refine ⟨{ b with
      pBuff := mem
      nLast := b.nLast - nLen
      sendBuffFullCount :=
        if 0 < b.sendBuffFullCount then b.sendBuffFullCount - 1 else b.sendBuffFullCount },
    ?_, ?_, ?_, rfl⟩
  · dsimp only [pop]
    rw [hmem]
    rfl
  · refine ⟨by simpa [hlength] using hlen, ?_, ?_, h.nSize_le⟩
    · show 0 ≤ b.nLast - nLen
      omega
    · show b.nLast - nLen ≤ b.nSize
      omega
  · show mem.take (b.nLast - nLen).toNat = (b.pBuff.take b.nLast.toNat).drop nLen.toNat
    rw [htake, List.drop_take]
    congr 1
    omega

/-- A negative length makes `pop` read in front of the block. -/
theorem Valid.pop_of_neg (h : b.Valid) {nLen : ℤ} (hneg : nLen < 0) : b.pop nLen = none := by
  have hnonneg := h.nLast_nonneg
  have hpos : 0 < b.nLast - nLen := by omega
  dsimp only [pop]
  rw [if_pos hpos, Block.copyWithin_eq_none_of_neg hneg]
  rfl

/-! ### Sending -/

/-- **What an accepted push does**: the message is appended to the content. -/
theorem Valid.push_of_fits (h : b.Valid) {pData : List UInt8} {nLen : ℤ} (hnonneg : 0 ≤ nLen)
    (hle : nLen ≤ pData.length) (hfits : b.nLast + nLen ≤ b.nSize) :
    ∃ b', b.push (some pData) nLen = some ⟨true, b', [.read, .release]⟩ ∧ b'.Valid ∧
      b'.content = b.content ++ pData.take nLen.toNat ∧ b'.nSize = b.nSize := by
  have hlen := h.length_pBuff
  have hlast := h.nLast_nonneg
  have hmax : ¬ intMax < b.nLast + nLen := by
    have := h.nSize_le
    omega
  have hbytes : ((pData.take nLen.toNat).length : ℤ) = nLen := by
    rw [List.length_take]
    omega
  have hread : Block.read pData 0 nLen = some (pData.take nLen.toNat) := by
    rw [Block.read_eq_some le_rfl hnonneg (by omega)]
    rfl
  obtain ⟨mem, hmem⟩ : ∃ mem, Block.write b.pBuff b.nLast (pData.take nLen.toNat) = some mem :=
    ⟨_, Block.write_eq_some hlast (by omega)⟩
  obtain ⟨hlength, htake⟩ := Block.write_spec hmem
  refine ⟨{ b with
      pBuff := mem
      nLast := b.nLast + nLen
      sendBuffFullCount :=
        if b.nLast + nLen = b.nSize then b.sendBuffFullCount + 1 else b.sendBuffFullCount },
    ?_, ?_, ?_, rfl⟩
  · dsimp only [push]
    rw [if_neg hmax, if_pos hfits, hread]
    dsimp only [bind, Option.bind]
    rw [hmem]
    rfl
  · refine ⟨by simpa [hlength] using hlen, ?_, hfits, h.nSize_le⟩
    show 0 ≤ b.nLast + nLen
    omega
  · show mem.take (b.nLast + nLen).toNat = b.pBuff.take b.nLast.toNat ++ pData.take nLen.toNat
    rw [← htake]
    congr 1
    omega

/-- What a rejected push does: it counts. -/
theorem push_of_not_fits {pData : List UInt8} {nLen : ℤ} (hmax : b.nLast + nLen ≤ intMax)
    (hfull : ¬ b.nLast + nLen ≤ b.nSize) :
    b.push (some pData) nLen =
      some ⟨false, { b with sendBuffFullCount := b.sendBuffFullCount + 1 }, [.release]⟩ := by
  dsimp only [push]
  rw [if_neg (not_lt.mpr hmax), if_neg hfull]

/-- A push past `INT_MAX` has no defined result. -/
theorem push_of_overflow {pData : List UInt8} {nLen : ℤ} (hmax : intMax < b.nLast + nLen) :
    b.push (some pData) nLen = none := by
  dsimp only [push]
  rw [if_pos hmax]

/-- A message that is given to `push` is taken, or counted and left out. -/
theorem push_cases {msg : List UInt8} {nLen : ℤ} {r : PushResult}
    (h : b.push (some msg) nLen = some r) :
    r.ret = true ∧ r.accesses = [.read, .release] ∨
      r = ⟨false, { b with sendBuffFullCount := b.sendBuffFullCount + 1 }, [.release]⟩ := by
  dsimp only [push] at h
  split at h
  · cases h
  split at h
  · simp only [bind, Option.bind_eq_some_iff, pure, Option.some.injEq] at h
    obtain ⟨bytes, -, mem, -, rfl⟩ := h
    exact .inl ⟨rfl, rfl⟩
  · exact .inr (Option.some.inj h).symm

/-- **What `push` does to a message**: it reads it if there is room, and deletes it. -/
theorem accesses_of_push {msg : List UInt8} {nLen : ℤ} {r : PushResult}
    (h : b.push (some msg) nLen = some r) :
    r.ret = true ∧ r.accesses = [.read, .release] ∨ r.ret = false ∧ r.accesses = [.release] := by
  rcases push_cases h with htaken | rfl
  · exact .inl htaken
  · exact .inr ⟨rfl, rfl⟩

/-- Whatever `push` was given: when it says no, the content is what it was. -/
theorem content_of_push_eq_false {pData : Option (List UInt8)} {nLen : ℤ} {r : PushResult}
    (h : b.push pData nLen = some r) (hret : r.ret = false) : r.buff.content = b.content := by
  cases pData with
  | none =>
    obtain rfl : _ = r := Option.some.inj h
    rfl
  | some msg =>
    rcases push_cases h with ⟨htrue, -⟩ | rfl
    · rw [hret] at htrue
      cases htrue
    · rfl

theorem Valid.wantsSend_iff (h : b.Valid) : b.wantsSend true = true ↔ b.content ≠ [] := by
  have hlen := h.length_content
  rw [wantsSend, Bool.and_true, decide_eq_true_eq, ← List.length_pos_iff]
  omega

/-- After a `send` the buffer is empty, whatever the `send` took. -/
theorem Valid.writeToSocket_true (h : b.Valid) (r : ℤ) :
    (b.writeToSocket true r).2.Valid ∧ (b.writeToSocket true r).2.content = [] := by
  by_cases hwants : b.wantsSend true = true
  · have hresult : (b.writeToSocket true r).2 = { b with nLast := 0, sendBuffFullCount := 0 } := by
      rw [writeToSocket, if_pos hwants]
    rw [hresult]
    refine ⟨⟨h.length_pBuff, le_refl _, ?_, h.nSize_le⟩, by simp [content]⟩
    exact le_trans h.nLast_nonneg h.nLast_le
  · have hresult : (b.writeToSocket true r).2 = b := by
      rw [writeToSocket, if_neg hwants]
    rw [hresult]
    exact ⟨h, not_not.mp (mt h.wantsSend_iff.mpr hwants)⟩

end CellBuffer
end EasyTcpServer
