import EasyTcpServer.Lib.Layout
import EasyTcpServer.Lib.Shift
import EasyTcpServer.Lib.WholeFrames
import EasyTcpServer.Server.OnNetMsg

/-!
# The messages

Every message is a struct derived from `DataHeader`.  Its constructor writes `dataLength`, the
size of the whole struct, and `cmd`; a message is sent by giving `send` the struct as it lies in
memory.  Whoever receives one tests `cmd` and casts the pointer to the struct of that command.

The layouts are those of x64 under Windows: `short` has two bytes, `int` four, `SOCKET` eight,
and only `NewLogin` has padding.  What no constructor writes, the arrays and the padding, is part
of a message here as whatever bytes it has.

* `Message.toBytes`: the struct in memory, and `Message.ofBytes`: the cast.
* `ofBytes_toBytes`: a cast gets every field back, whatever stands behind the message.
* `messages_of_stream`: the framing loop and the casts get a sequence of messages back from its
  bytes, and its first messages when the bytes are cut off anywhere.
-/

namespace EasyTcpServer

open Layout

/-- A request to log in. -/
structure Login where
  userName : Vector UInt8 32
  passWord : Vector UInt8 32
  data : Vector UInt8 32
  deriving DecidableEq

/-- The answer to it. -/
structure LoginResult where
  result : BitVec 32
  data : Vector UInt8 92
  deriving DecidableEq

/-- A request to log out. -/
structure LoginOut where
  userName : Vector UInt8 32
  deriving DecidableEq

/-- The answer to it. -/
structure LoginOutResult where
  result : BitVec 32
  deriving DecidableEq

/-- A new user. -/
structure NewLogin where
  ip : Vector UInt8 16
  /-- Padding in front of `sock`. -/
  pad : Vector UInt8 4
  sock : BitVec 64
  port : BitVec 32
  /-- Padding at the end. -/
  padEnd : Vector UInt8 4
  deriving DecidableEq

/-- A message, by the struct it is. -/
inductive Message where
  | login (m : Login)
  | loginResult (m : LoginResult)
  | loginOut (m : LoginOut)
  | loginOutResult (m : LoginOutResult)
  | newLogin (m : NewLogin)
  | heartS2C
  | heartC2S
  /-- A `DataHeader` alone. -/
  | dataHeader
  deriving DecidableEq

/-- The command of a number, if it is one. -/
def Cmd.ofShort (n : ℤ) : Option Cmd :=
  if n = 0 then some .login else if n = 1 then some .loginRet else if n = 2 then some .loginout
  else if n = 3 then some .loginoutRet else if n = 4 then some .newLogin
  else if n = 5 then some .heartS2C else if n = 6 then some .heartC2S
  else if n = 7 then some .error else none

@[simp] theorem Cmd.ofShort_toShort (c : Cmd) : Cmd.ofShort c.toShort = some c := by
  cases c <;> decide

namespace Message

/-- What the constructor writes to `cmd`. -/
def cmd : Message → Cmd
  | login _ => .login
  | loginResult _ => .loginRet
  | loginOut _ => .loginout
  | loginOutResult _ => .loginoutRet
  | newLogin _ => .newLogin
  | heartS2C => .heartS2C
  | heartC2S => .heartC2S
  | dataHeader => .error

/-- `sizeof` the struct, which the constructor writes to `dataLength`. -/
def size : Message → ℕ
  | login _ => 100
  | loginResult _ => 100
  | loginOut _ => 36
  | loginOutResult _ => 8
  | newLogin _ => 40
  | heartS2C | heartC2S | dataHeader => sizeofDataHeader

/-- The members behind the header. -/
def body : Message → List UInt8
  | login m => m.userName.toList ++ (m.passWord.toList ++ m.data.toList)
  | loginResult m => wordBytes (n := 4) m.result ++ m.data.toList
  | loginOut m => m.userName.toList
  | loginOutResult m => wordBytes (n := 4) m.result
  | newLogin m =>
    m.ip.toList ++ (m.pad.toList ++ (wordBytes (n := 8) m.sock ++
      (wordBytes (n := 4) m.port ++ m.padEnd.toList)))
  | heartS2C | heartC2S | dataHeader => []

/-- The two shorts in front. -/
def header (m : Message) : List UInt8 :=
  littleEndian 2 m.size ++ littleEndian 2 m.cmd.toShort.toNat

/-- The struct in memory. -/
def toBytes (m : Message) : List UInt8 := m.header ++ m.body

/-- The struct that a pointer to these bytes is cast to, by `cmd`. -/
def ofBytes (bytes : List UInt8) : Option Message :=
  (Cmd.ofShort (EasyTcpServer.cmd bytes)).map fun
    | .login => login ⟨chars bytes 4 32, chars bytes 36 32, chars bytes 68 32⟩
    | .loginRet => loginResult ⟨word bytes 4 4, chars bytes 8 92⟩
    | .loginout => loginOut ⟨chars bytes 4 32⟩
    | .loginoutRet => loginOutResult ⟨word bytes 4 4⟩
    | .newLogin =>
      newLogin ⟨chars bytes 4 16, chars bytes 20 4, word bytes 24 8, word bytes 32 4,
        chars bytes 36 4⟩
    | .heartS2C => heartS2C
    | .heartC2S => heartC2S
    | .error => dataHeader

/-! ## One message -/

@[simp] theorem length_header (m : Message) : m.header.length = 4 := by
  rw [header, List.length_append, length_littleEndian, length_littleEndian]

theorem length_toBytes (m : Message) : m.toBytes.length = m.size := by
  rw [toBytes, List.length_append, length_header]
  cases m <;> simp [body, size, sizeofDataHeader]

theorem size_le (m : Message) : m.size ≤ 100 := by
  cases m <;> simp [size, sizeofDataHeader]

theorem four_le_size (m : Message) : 4 ≤ m.size := by
  cases m <;> simp [size, sizeofDataHeader]

/-- A short that was written low byte first is read back. -/
theorem short_ofNat {v : ℕ} (hv : v < 32768) :
    short (UInt8.ofNat v) (UInt8.ofNat (v / 256)) = v := by
  have hlow : (UInt8.ofNat v).toBitVec.toNat = v % 256 := UInt8.toNat_ofNat'
  have hhigh : (UInt8.ofNat (v / 256)).toBitVec.toNat = v / 256 % 256 := UInt8.toNat_ofNat'
  have hnat : ((UInt8.ofNat (v / 256)).toBitVec ++ (UInt8.ofNat v).toBitVec).toNat = v := by
    rw [BitVec.toNat_append, hhigh, hlow, ← Nat.shiftLeft_add_eq_or_of_lt (by omega),
      Nat.shiftLeft_eq]
    omega
  rw [short, BitVec.toInt_eq_toNat_of_lt (by omega), hnat]

/-- The header is read off the front. -/
theorem dataLength_header (m : Message) : dataLength m.header = m.size :=
  short_ofNat (lt_of_le_of_lt m.size_le (by decide))

theorem cmd_header (m : Message) : EasyTcpServer.cmd m.header = m.cmd.toShort := by
  have hlt : m.cmd.toShort.toNat < 32768 := by cases m <;> simp [Message.cmd, Cmd.toShort]
  have hnonneg : 0 ≤ m.cmd.toShort := by cases m <;> simp [Message.cmd, Cmd.toShort]
  have hshort : EasyTcpServer.cmd m.header = m.cmd.toShort.toNat := short_ofNat hlt
  rw [hshort, Int.toNat_of_nonneg hnonneg]

/-- **A message is a frame.** -/
theorem frame (m : Message) : messageFormat.Frame m.toBytes := by
  have hheader : sizeofDataHeader ≤ m.header.length := by
    rw [length_header]
    exact le_refl 4
  have hfour := m.four_le_size
  refine ⟨?_, ?_⟩
  · rw [length_toBytes]
    exact hfour
  · rw [messageFormat_declared, toBytes, dataLength_append _ _ hheader, dataLength_header,
      ← toBytes, length_toBytes]

theorem cmd_toBytes_append (m : Message) (rest : List UInt8) :
    EasyTcpServer.cmd (m.toBytes ++ rest) = m.cmd.toShort := by
  rw [← cmd_header, EasyTcpServer.cmd, EasyTcpServer.cmd, toBytes, List.append_assoc]
  rw [List.getD_append _ _ _ _ (by simp), List.getD_append _ _ _ _ (by simp)]

/-- **A cast gets every field back**, whatever stands behind the message. -/
theorem ofBytes_toBytes (m : Message) (rest : List UInt8) :
    ofBytes (m.toBytes ++ rest) = some m := by
  rw [ofBytes, cmd_toBytes_append, Cmd.ofShort_toShort, Option.map_some, toBytes]
  cases m <;>
    simp [Message.cmd, body, chars_append_of_le, word_append_of_le, chars_append_self,
      word_append_self]

theorem toBytes_injective : Function.Injective toBytes := by
  intro m n h
  have hm := ofBytes_toBytes m []
  rw [h, ofBytes_toBytes] at hm
  exact (Option.some.inj hm).symm

/-! ## A stream of messages -/

/-- The bytes of some messages, one behind the other. -/
def stream (ms : List Message) : List UInt8 := (ms.map toBytes).flatten

/-- What the framing loop hands on, cast to the messages. -/
def received (bytes : List UInt8) : List (Option Message) :=
  (messageFormat.parse bytes).1.map ofBytes

variable (ms ns : List Message)

theorem stream_append : stream (ms ++ ns) = stream ms ++ stream ns := by
  rw [stream, List.map_append, List.flatten_append, stream, stream]

theorem stream_cons (m : Message) : stream (m :: ms) = m.toBytes ++ stream ms := rfl

theorem frame_of_mem : ∀ bytes ∈ ms.map toBytes, messageFormat.Frame bytes := by
  intro bytes hbytes
  obtain ⟨m, -, rfl⟩ := List.mem_map.mp hbytes
  exact m.frame

theorem map_ofBytes : (ms.map toBytes).map ofBytes = ms.map some := by
  rw [List.map_map]
  refine List.map_congr_left fun m _ => ?_
  have hm := ofBytes_toBytes m []
  rwa [List.append_nil] at hm

variable {ms}

/-- The frames found in the front of a stream of messages are its first messages. -/
theorem exists_of_prefix {xs : List UInt8} (h : xs <+: stream ms) :
    ∃ ks, ks <+: ms ∧ (messageFormat.parse xs).1 = ks.map toBytes := by
  obtain ⟨zs, hzs⟩ := h
  have hcuts := (Format.cuts_parse (F := messageFormat) xs).append_right zs
  rw [hzs] at hcuts
  obtain ⟨rest, hrest, -⟩ := Format.exists_rest_of_cuts (by decide) (frame_of_mem ms) hcuts
  obtain ⟨ks, ls, rfl, hks, -⟩ := List.map_eq_append_iff.mp hrest
  exact ⟨ks, List.prefix_append ks ls, hks.symm⟩

theorem parse_stream (ms : List Message) :
    messageFormat.parse (stream ms) = (ms.map toBytes, []) :=
  Format.parse_flatten (by decide) (frame_of_mem ms)

/-- **Messages and their bytes.**  The framing loop and the casts get a sequence of messages
back from its bytes and leave no rest; from the front of these bytes, cut off anywhere, they get
the first messages; and a sequence of messages goes on with another one exactly when its bytes
do, so no two sequences share their bytes. -/
theorem messages_of_stream (ms : List Message) :
    received (stream ms) = ms.map some ∧ (messageFormat.parse (stream ms)).2 = [] ∧
      (∀ xs, xs <+: stream ms → received xs <+: ms.map some) ∧
      ∀ ns, stream ns <+: stream ms ↔ ns <+: ms := by
  refine ⟨?_, ?_, fun xs hxs => ?_, fun ns => ⟨fun h => ?_, ?_⟩⟩
  · rw [received, parse_stream, map_ofBytes]
  · rw [parse_stream]
  · obtain ⟨ks, hks, hparse⟩ := exists_of_prefix hxs
    rw [received, hparse, map_ofBytes]
    exact hks.map _
  · obtain ⟨ks, hks, hparse⟩ := exists_of_prefix h
    rw [parse_stream] at hparse
    rwa [List.map_injective_iff.mpr toBytes_injective hparse]
  · rintro ⟨rest, rfl⟩
    rw [stream_append]
    exact List.prefix_append _ _

/-- Of two heartbeats five bytes have come in: the first of them is received. -/
theorem messages_of_stream_hearts :
    [some heartC2S] = received [4, 0, 6, 0, 4] ∧
      received [4, 0, 6, 0, 4] <+: [heartC2S, heartS2C].map some := by
  have hfront := (messages_of_stream [heartC2S, heartS2C]).2.2.1 [4, 0, 6, 0, 4] (by decide)
  refine ⟨?_, hfront⟩
  have hparse : messageFormat.parse [4, 0, 6, 0, 4] = ([[4, 0, 6, 0]], [4]) := by
    rw [Format.parse_of_complete (by decide) (by decide),
      Format.parse_of_not_complete (by decide)]
    decide
  rw [received, hparse]
  decide

end Message
end EasyTcpServer
