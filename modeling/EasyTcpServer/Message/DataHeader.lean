import Mathlib.Data.List.GetD
import Mathlib.Tactic.NormNum
import EasyTcpServer.Lib.Framing

/-!
# The message header

Every message starts with a `DataHeader`: two shorts, `dataLength` and `cmd`, without
padding.  `dataLength` counts the whole message, header included.  It is written in the
byte order of the host, and both programs are built for x64 only, so the low byte comes
first.

Nothing on the receiving side checks the field, so `dataLength` is any of the 65536
values of a short, negative ones included.
-/

namespace EasyTcpServer

/-- `sizeof(DataHeader)`. -/
def sizeofDataHeader : ℕ := 4

/-- A short in memory, low byte first. -/
def short (lo hi : UInt8) : ℤ := (hi.toBitVec ++ lo.toBitVec).toInt

/-- `((DataHeader*)p)->dataLength` for a pointer `p` to these bytes. -/
def dataLength (bytes : List UInt8) : ℤ := short (bytes.getD 0 0) (bytes.getD 1 0)

theorem dataLength_append (xs ys : List UInt8) (h : sizeofDataHeader ≤ xs.length) :
    dataLength (xs ++ ys) = dataLength xs := by
  unfold sizeofDataHeader at h
  unfold dataLength
  rw [List.getD_append _ _ _ _ (by omega), List.getD_append _ _ _ _ (by omega)]

/-- The framing of the byte stream between client and server. -/
def messageFormat : Format UInt8 where
  headerSize := sizeofDataHeader
  declared := dataLength
  declared_append := dataLength_append

@[simp] theorem messageFormat_headerSize : messageFormat.headerSize = 4 := rfl

@[simp] theorem messageFormat_declared (xs : List UInt8) :
    messageFormat.declared xs = dataLength xs := rfl

/-- The length of a message is read off the part of the buffer that has been received. -/
theorem dataLength_take {xs : List UInt8} {n : ℕ} (h : sizeofDataHeader ≤ (xs.take n).length) :
    dataLength (xs.take n) = dataLength xs := by
  have happend := dataLength_append (xs.take n) (xs.drop n) h
  rw [List.take_append_drop] at happend
  exact happend.symm

end EasyTcpServer
