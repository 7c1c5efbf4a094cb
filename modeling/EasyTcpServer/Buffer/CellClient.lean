import EasyTcpServer.Buffer.CellBuffer

/-!
# `Cell_Client`

One connection as the server keeps it: a socket, a send buffer, a receive buffer and two
timers.  Most methods hand on to a buffer; `pop_front_msg` is the exception, because it
asks `hasMsg` once more before it pops.

The address of the peer and the running number `id` are read by nothing that is modelled
here and are left out.
-/

namespace EasyTcpServer

/-- `RECV_BUFF_SIZE`. -/
def recvBuffSize : ℕ := 8192

/-- `SEND_BUFF_SIZE`. -/
def sendBuffSize : ℕ := 10240

/-- `SOCKET_ERROR`. -/
def socketError : ℤ := -1

/-- `CLIENT_HREAT_DEAD_TIME`, in milliseconds. -/
def clientHreatDeadTime : ℤ := 60000

/-- A socket descriptor.  On the platform with the `fd_array` loops it is unsigned. -/
abbrev Socket := ℕ

/-- `INVALID_SOCKET`, all bits set. -/
def invalidSocket : Socket := 2 ^ 64 - 1

structure CellClient where
  serverId : ℤ
  sendBuff : CellBuffer
  recvBuff : CellBuffer
  dtHeart : ℤ
  dtSend : ℤ
  sockfd : Socket
  deriving DecidableEq, Repr

/-- The result of `sendData`: its return value, the client, and what it did to the message. -/
structure SendDataResult where
  ret : ℤ
  client : CellClient
  accesses : List Access

namespace CellClient

/-- The constructor, with the two blocks its buffers are given. -/
def new (sendMem : Vector UInt8 sendBuffSize) (recvMem : Vector UInt8 recvBuffSize)
    (sockfd : Socket) : CellClient where
  serverId := -1
  sendBuff := .new sendMem
  recvBuff := .new recvMem
  dtHeart := 0
  dtSend := 0
  sockfd := sockfd

variable (c : CellClient)

/-- `RecvData()` when `recv` reports `o`. -/
def recvData (o : Recv) : Option (ℤ × CellClient) :=
  (c.recvBuff.readForSocket o).map fun r => (r.1, { c with recvBuff := r.2 })

def hasMsg : Bool := c.recvBuff.hasMsg

/-- `front_msg()`: a pointer to the front of the receive buffer, read as the bytes behind
it.  Where the message ends is up to whoever reads it. -/
def frontMsg : List UInt8 := c.recvBuff.data

/-- `pop_front_msg()`. -/
def popFrontMsg : Option CellClient :=
  if c.hasMsg then
    (c.recvBuff.pop (dataLength c.frontMsg)).map fun b => { c with recvBuff := b }
  else some c

/-- `resetDtSend()`. -/
def resetDtSend : CellClient := { c with dtSend := 0 }

/-- `sendDataReal()` when `send` reports `r`. -/
def sendDataReal (r : ℤ) : ℤ × CellClient :=
  let c := c.resetDtSend
  let out := c.sendBuff.writeToSocket (c.sockfd != invalidSocket) r
  (out.1, { c with sendBuff := out.2 })

/-- `sendData(data_header)` for a pointer to the bytes `msg`.  The length is read before
the call of `push`, and once more for the return value when `push` has accepted. -/
def sendData (msg : List UInt8) : Option SendDataResult :=
  (c.sendBuff.push (some msg) (dataLength msg)).map fun r =>
    { ret := if r.ret then dataLength msg else socketError
      client := { c with sendBuff := r.buff }
      accesses := [.read] ++ r.accesses ++ (if r.ret then [.read] else []) }

/-- `resetDtHeart()`. -/
def resetDtHeart : CellClient := { c with dtHeart := 0 }

/-- `checkHeart(dt)`: whether the client is considered dead, and the client with its timer
advanced. -/
def checkHeart (dt : ℤ) : Bool × CellClient :=
  (clientHreatDeadTime ≤ c.dtHeart + dt, { c with dtHeart := c.dtHeart + dt })

end CellClient
end EasyTcpServer
