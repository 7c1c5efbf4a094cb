import EasyTcpServer.Buffer.CellClient
import EasyTcpServer.Buffer.MsgBuf

/-!
# The test client

A `Client` is made once and may be connected any number of times: `Init_sock` and `Close_sock`
deal with the socket, `Connect` opens one if there is none.  What it has received lies in
`_szMsgBuf`, a member of the object and not of the connection.

What the system reports is in the labels: what `WSAStartup` and `socket()` return, whether
`connect` succeeds, what `select` and `recv` report.  Of the system it is assumed that `connect`
succeeds only on a socket that is open and not connected, and that bytes come in only over a
connection.

The receive function is that of `Buffer.MsgBuf`, one step for the read and one for each turn of
the loop.  What came in and what was handed to `onNetMsg` is recorded for the last connection
alone: the record is emptied when `connect` succeeds.

`_szRecv`, `_sendConut` and the timestamp are used by nothing that is modelled here.
-/

namespace EasyTcpServer

open FramedReceiver (Phase)

/-- A client: its socket, its flag, and `_szMsgBuf` and `_lastPos` with the record. -/
structure Client where
  sock : Socket
  isConnect : Bool
  recv : MsgBuf.RecvState
  deriving DecidableEq, Repr

namespace Client

/-- The constructor, in front of its call of `Init_sock`. -/
def new : Client := ⟨invalidSocket, false, ⟨.idle, .new (.replicate _ 0), [], []⟩⟩

variable (c : Client)

/-- `Close_sock()`. -/
def closeSock : Client :=
  { c with
    sock := if c.sock ≠ invalidSocket then invalidSocket else c.sock
    isConnect := false }

/-- `Init_sock()` when `WSAStartup` returns `startup` and `socket()` returns `sock`.  Every other
error of `WSAStartup` than `SOCKET_ERROR` is taken for success.  Both values that the source
compares the descriptor with are all bits set. -/
def initSock (startup : ℤ) (sock : Socket) : ℤ × Client :=
  if startup ≠ socketError then
    let c := if c.sock ≠ invalidSocket then c.closeSock else c
    (if sock = invalidSocket then -1 else 0, { c with sock := sock })
  else (-1, c)

/-- The part of `Connect` in front of `connect`. -/
def opened (startup : ℤ) (sock : Socket) : Client :=
  if c.sock = invalidSocket then (c.initSock startup sock).2 else c

/-- `Connect(ip, port)` when `connect` succeeds or not.  With a new connection begins a new
record. -/
def connect (startup : ℤ) (sock : Socket) (success : Bool) : ℤ × Client :=
  let c := c.opened startup sock
  if success then
    (0, { c with isConnect := true, recv := { c.recv with received := [], delivered := [] } })
  else (-1, c)

/-- `RecvData(_sock)` up to the loop when `recv` reports `o`.  The phase `left` stands for the
return of -1. -/
def recvData (o : Recv) : Client := { c with recv := MsgBuf.enter c.recv o }

/-- A turn of the loop of `RecvData`. -/
def turn : Client := { c with recv := MsgBuf.turn c.recv }

/-- Back from `RecvData`. -/
def returned : Client := { c with recv := { c.recv with phase := .idle } }

/-- `isRun()`. -/
def isRun : Bool := c.sock ≠ invalidSocket

/-- What can happen to a client between and in the calls of its methods. -/
inductive Act where
  | initSock (startup : ℤ) (sock : Socket)
  | connect (startup : ℤ) (sock : Socket) (success : Bool)
  | closeSock
  /-- `RecvData(_sock)` is called and `recv` reports `o`. -/
  | recvData (o : Recv)
  /-- `onRun` is called; `select` fails, or the socket is not ready, or it is ready and `recv`
  reports something. -/
  | onRun (ready : Option (Option Recv))
  /-- A turn of the loop of `RecvData`. -/
  | turn
  deriving DecidableEq, Repr

/-- What `recv` may report: bytes only over a connection. -/
def RecvLegal (o : Recv) : Prop :=
  o.Legal c.recv.buf.room ∧ (c.isConnect = true ∨ o.received = [])

instance (o : Recv) : Decidable (c.RecvLegal o) := by
  unfold RecvLegal
  infer_instance

/-- What `connect` may report: success only on an open socket that is not connected. -/
def ConnectLegal (startup : ℤ) (sock : Socket) (success : Bool) : Prop :=
  success = true → c.isConnect = false ∧ (c.opened startup sock).sock ≠ invalidSocket

instance (startup : ℤ) (sock : Socket) (success : Bool) :
    Decidable (c.ConnectLegal startup sock success) := by
  unfold ConnectLegal
  infer_instance

/-- `RecvData(_sock)` called from outside: on -1 it returns, and nothing is closed. -/
def callRecvData (o : Recv) : Client :=
  if (c.recvData o).recv.phase = .left then (c.recvData o).returned else c.recvData o

/-- `onRun()`.  It closes the socket when `select` fails and when `RecvData` returns -1. -/
def onRun (ready : Option (Option Recv)) : Client :=
  if c.isRun then
    match ready with
    | none => c.closeSock
    | some none => c
    | some (some o) =>
      if (c.recvData o).recv.phase = .left then (c.recvData o).returned.closeSock
      else c.recvData o
  else c

/-- What `onRun` may be told; without a socket it asks nothing. -/
def OnRunLegal : Option (Option Recv) → Prop
  | some (some o) => c.isRun = true ∧ c.RecvLegal o
  | _ => True

instance : (ready : Option (Option Recv)) → Decidable (c.OnRunLegal ready)
  | none => isTrue trivial
  | some none => isTrue trivial
  | some (some o) => inferInstanceAs (Decidable (c.isRun = true ∧ c.RecvLegal o))

end Client

open Client in
/-- The client, its methods called in any order. -/
def client : Machine Client Act where
  init := .new
  step c
    | .initSock startup sock =>
      if c.recv.phase = .idle then some (c.initSock startup sock).2 else none
    | .connect startup sock success =>
      if c.recv.phase = .idle ∧ c.ConnectLegal startup sock success then
        some (c.connect startup sock success).2
      else none
    | .closeSock => if c.recv.phase = .idle then some c.closeSock else none
    | .recvData o => if c.recv.phase = .idle ∧ c.RecvLegal o then some (c.callRecvData o) else none
    | .onRun ready =>
      if c.recv.phase = .idle ∧ c.OnRunLegal ready then some (c.onRun ready) else none
    | .turn => if c.recv.phase = .extract then some c.turn else none

namespace Client

/-- The bytes a step brings. -/
def Act.chunk : Act → List UInt8
  | .recvData o => o.received
  | .onRun (some (some o)) => o.received
  | _ => []

/-- Whether a step makes a connection. -/
def Act.connects : Act → Bool
  | .connect _ _ success => success
  | _ => false

/-! ## What one step can do -/

variable {c d : Client}

@[simp] theorem recv_closeSock : c.closeSock.recv = c.recv := rfl

@[simp] theorem recv_initSock (startup : ℤ) (sock : Socket) :
    (c.initSock startup sock).2.recv = c.recv := by
  unfold initSock
  split
  · dsimp only
    split <;> rfl
  · rfl

@[simp] theorem recv_opened (startup : ℤ) (sock : Socket) :
    (c.opened startup sock).recv = c.recv := by
  unfold opened
  split
  · exact recv_initSock startup sock
  · rfl

/-- A read that brings nothing, behind the return of -1. -/
theorem recv_returned_fail (hidle : c.recv.phase = .idle) (ret : ℤ) :
    (c.recvData (.fail ret)).recv.phase = .left ∧
      (c.recvData (.fail ret)).returned.recv = c.recv := by
  have henter : MsgBuf.enter c.recv (.fail ret) = { c.recv with phase := .left } := by
    simp [MsgBuf.enter, MsgBuf.append]
  refine ⟨by rw [recvData, henter], ?_⟩
  show { MsgBuf.enter c.recv (.fail ret) with phase := Phase.idle } = c.recv
  rw [henter, ← hidle]

/-- A read that brings bytes does not return -1. -/
theorem phase_recvData_bytes (hvalid : c.recv.buf.Valid) (hidle : c.recv.phase = .idle)
    {chunk : List UInt8} (hlegal : (Recv.bytes chunk).Legal c.recv.buf.room) :
    (c.recvData (.bytes chunk)).recv.phase ≠ .left := by
  obtain ⟨-, -, habs⟩ := FramedReceiver.step_arrive_cases (hvalid.enter_bytes hidle hlegal).2
  have hextract : (MsgBuf.enter c.recv (.bytes chunk)).phase = .extract := congrArg (·.phase) habs
  rw [recvData, hextract]
  decide

/-- What a step does to the message buffer and the record: between calls it leaves them alone,
or begins a new record, or reads a chunk; in the loop it takes a turn. -/
inductive Effect (c : Client) (i : Act) (r : MsgBuf.RecvState) : Prop where
  | none : i.chunk = [] → i.connects = false → c.recv.phase = .idle → r = c.recv → Effect c i r
  | connected : i.chunk = [] → i.connects = true → c.recv.phase = .idle →
      r = { c.recv with received := [], delivered := [] } → Effect c i r
  | read (chunk : List UInt8) : i.chunk = chunk → i.connects = false → c.recv.phase = .idle →
      (Recv.bytes chunk).Legal c.recv.buf.room → r = MsgBuf.enter c.recv (.bytes chunk) →
        Effect c i r
  | turned : i = .turn → c.recv.phase = .extract → r = MsgBuf.turn c.recv → Effect c i r

theorem step_cases (hvalid : c.recv.buf.Valid) {i : Act} (h : client.step c i = some d) :
    Effect c i d.recv := by
  cases i with
  | initSock startup sock =>
    obtain ⟨hidle, rfl⟩ := Machine.guarded_eq_some.mp h
    exact .none rfl rfl hidle (recv_initSock startup sock)
  | connect startup sock success =>
    obtain ⟨⟨hidle, -⟩, rfl⟩ := Machine.guarded_eq_some.mp h
    cases success with
    | true =>
      exact .connected rfl rfl hidle (by simp [connect])
    | false =>
      exact .none rfl rfl hidle (by simp [connect])
  | closeSock =>
    obtain ⟨hidle, rfl⟩ := Machine.guarded_eq_some.mp h
    exact .none rfl rfl hidle rfl
  | recvData o =>
    obtain ⟨⟨hidle, hlegal, -⟩, rfl⟩ := Machine.guarded_eq_some.mp h
    cases o with
    | bytes chunk =>
      rw [callRecvData, if_neg (phase_recvData_bytes hvalid hidle hlegal)]
      exact .read chunk rfl rfl hidle hlegal rfl
    | fail ret =>
      obtain ⟨hleft, hrecv⟩ := recv_returned_fail hidle ret
      rw [callRecvData, if_pos hleft]
      exact .none rfl rfl hidle hrecv
  | onRun ready =>
    obtain ⟨⟨hidle, hlegal⟩, rfl⟩ := Machine.guarded_eq_some.mp h
    cases ready with
    | none =>
      rw [onRun]
      split <;> exact .none rfl rfl hidle rfl
    | some q =>
      cases q with
      | none =>
        rw [onRun]
        split <;> exact .none rfl rfl hidle rfl
      | some o =>
        obtain ⟨hrun, hlegal, -⟩ := hlegal
        cases o with
        | bytes chunk =>
          have hread : c.onRun (some (some (.bytes chunk))) = c.recvData (.bytes chunk) := by
            rw [onRun, if_pos hrun]
            exact if_neg (phase_recvData_bytes hvalid hidle hlegal)
          rw [hread]
          exact .read chunk rfl rfl hidle hlegal rfl
        | fail ret =>
          obtain ⟨hleft, hrecv⟩ := recv_returned_fail hidle ret
          have hclosed : c.onRun (some (some (.fail ret))) =
              (c.recvData (.fail ret)).returned.closeSock := by
            rw [onRun, if_pos hrun]
            exact if_pos hleft
          rw [hclosed]
          exact .none rfl rfl hidle hrecv
  | turn =>
    obtain ⟨hphase, rfl⟩ := Machine.guarded_eq_some.mp h
    exact .turned rfl hphase rfl

end Client
end EasyTcpServer
