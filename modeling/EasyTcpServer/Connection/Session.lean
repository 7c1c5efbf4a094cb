import EasyTcpServer.Buffer.ClientSocket
import EasyTcpServer.Client.OnNetMsg
import EasyTcpServer.Lib.Link

/-!
# A session of the test client with the server

One connection between `Client.cpp` and the server of `Server.h` and `Server.cpp`, from the call
of `SendData` to the call of the client's `onNetMsg` for the reply.  Five parties take turns in
any order: the client that sends, the network in both directions, the `Cell_Server` thread that
reads and calls the handler, the task thread that hands the replies to `sendData`, and the
client that reads.

The requests are messages as their constructors make them.  Every `send` takes everything it is
given.  The tasks that have not run are a list; `Connection.TaskServer` puts a task server in its
place.

What a request is answered with depends on the request alone here, since a message that is as
long as its struct covers the fields the handler compares.  So the replies can be computed from
the requests (`Message.replies`), and the session can be measured by that.
-/

namespace EasyTcpServer

open FramedReceiver (Carried Phase)
open MyServer (root Holds IsMessage IsRoot Carries)

/-! ## What a message is answered with -/

/-- The answer to a message. -/
def Message.replies : Message → List ResultMsg
  | .login m =>
    [MyServer.loginResult
      (if root <+: m.userName.toList ∧ root <+: m.passWord.toList then 1 else -1)]
  | .loginOut m => [MyServer.loginOutResult (if root <+: m.userName.toList then 1 else -1)]
  | _ => []

/-- The reply as a message.  `data` is what lies in the part of a `LoginResult` that nobody
writes. -/
def ResultMsg.toMessage (r : ResultMsg) (data : Vector UInt8 92) : Message :=
  if r.cmd = .loginRet then .loginResult ⟨BitVec.ofInt 32 r.result, data⟩
  else .loginOutResult ⟨BitVec.ofInt 32 r.result⟩

/-- The command and the result of a reply, as the receiver finds them. -/
def Message.outcome : Message → Option (Cmd × ℤ)
  | .loginResult m => some (.loginRet, m.result.toInt)
  | .loginOutResult m => some (.loginoutRet, m.result.toInt)
  | _ => none

namespace Session

variable {buf : List UInt8}

theorem isMessage_toBytes (m : Message) : IsMessage m.toBytes := by
  have hframe := m.frame.declared
  rw [messageFormat_declared] at hframe
  refine ⟨?_, hframe⟩
  have hfour := m.four_le_size
  rw [hframe, m.length_toBytes]
  exact Int.ofNat_le.mpr hfour

/-- A prefix of some bytes and more is one of these bytes, if they are long enough. -/
theorem prefix_append_iff {xs ys zs : List UInt8} (hle : xs.length ≤ ys.length) :
    xs <+: ys ++ zs ↔ xs <+: ys :=
  ⟨fun h => List.prefix_of_prefix_length_le h (List.prefix_append ys zs) hle,
    fun h => h.trans (List.prefix_append ys zs)⟩

theorem isRoot_userName (m : Message) {u : Vector UInt8 32} {rest : List UInt8}
    (hbody : m.body = u.toList ++ rest) :
    IsRoot m.toBytes MyServer.userName ↔ root <+: u.toList := by
  have hdrop : m.toBytes.drop MyServer.userName = u.toList ++ rest := by
    rw [Message.toBytes, ← hbody]
    exact List.drop_left' m.length_header
  rw [IsRoot, hdrop]
  exact prefix_append_iff (by rw [Vector.length_toList]; decide)

theorem isRoot_passWord (m : Message) {u p : Vector UInt8 32} {rest : List UInt8}
    (hbody : m.body = u.toList ++ (p.toList ++ rest)) :
    IsRoot m.toBytes MyServer.passWord ↔ root <+: p.toList := by
  have hdrop : m.toBytes.drop MyServer.passWord = p.toList ++ rest := by
    have hlen : (m.header ++ u.toList).length = MyServer.passWord := by
      rw [List.length_append, Message.length_header, Vector.length_toList]
      rfl
    rw [Message.toBytes, hbody, ← List.append_assoc]
    exact List.drop_left' hlen
  rw [IsRoot, hdrop]
  exact prefix_append_iff (by rw [Vector.length_toList]; decide)

/-- Other commands are not answered. -/
theorem onNetMsg_of_cmd {c : Cmd} (hcmd : cmd buf = c.toShort) (hlogin : c ≠ .login)
    (hloginout : c ≠ .loginout) : MyServer.onNetMsg buf = some [] := by
  refine MyServer.onNetMsg_other ?_ ?_
  · rw [hcmd]
    cases c <;> first | decide | exact absurd rfl hlogin
  · rw [hcmd]
    cases c <;> first | decide | exact absurd rfl hloginout

/-- **The handler answers a whole message by its fields**, whatever stands behind it. -/
theorem onNetMsg_of_holds (m : Message) (h : Holds buf m.toBytes) :
    MyServer.onNetMsg buf = some m.replies := by
  have hm := isMessage_toBytes m
  have hcmd : cmd buf = m.cmd.toShort := by
    rw [h.cmd_eq hm]
    have hself := m.cmd_toBytes_append []
    rwa [List.append_nil] at hself
  cases m with
  | login m =>
    have hlen : (Message.login m).toBytes.length = 100 := Message.length_toBytes _
    have huser : IsRoot buf MyServer.userName ↔ root <+: m.userName.toList :=
      (h.isRoot_iff (by rw [hlen]; decide)).trans (isRoot_userName _ rfl)
    have hpass : IsRoot buf MyServer.passWord ↔ root <+: m.passWord.toList :=
      (h.isRoot_iff (by rw [hlen]; decide)).trans (isRoot_passWord _ rfl)
    have hcarries : Carries buf ↔ root <+: m.userName.toList ∧ root <+: m.passWord.toList :=
      and_congr huser hpass
    rw [MyServer.onNetMsg_login h.length hcmd, Message.replies]
    simp only [hcarries]
  | loginOut m =>
    have hlen : (Message.loginOut m).toBytes.length = 36 := Message.length_toBytes _
    have huser : IsRoot buf MyServer.userName ↔ root <+: m.userName.toList :=
      (h.isRoot_iff (by rw [hlen]; decide)).trans
        (isRoot_userName _ (List.append_nil m.userName.toList).symm)
    rw [MyServer.onNetMsg_loginout h.length hcmd, Message.replies]
    simp only [huser]
  | loginResult m => exact onNetMsg_of_cmd hcmd Cmd.noConfusion Cmd.noConfusion
  | loginOutResult m => exact onNetMsg_of_cmd hcmd Cmd.noConfusion Cmd.noConfusion
  | newLogin m => exact onNetMsg_of_cmd hcmd Cmd.noConfusion Cmd.noConfusion
  | heartS2C => exact onNetMsg_of_cmd hcmd Cmd.noConfusion Cmd.noConfusion
  | heartC2S => exact onNetMsg_of_cmd hcmd Cmd.noConfusion Cmd.noConfusion
  | dataHeader => exact onNetMsg_of_cmd hcmd Cmd.noConfusion Cmd.noConfusion

/-- A reply says on the wire what the handler has put into it. -/
theorem outcome_of_mem_replies {m : Message} {r : ResultMsg} (hr : r ∈ m.replies)
    (data : Vector UInt8 92) : (r.toMessage data).outcome = some (r.cmd, r.result) := by
  cases m with
  | login m =>
    rw [Message.replies, List.mem_singleton] at hr
    subst hr
    split_ifs <;> rfl
  | loginOut m =>
    rw [Message.replies, List.mem_singleton] at hr
    subst hr
    split_ifs <;> rfl
  | loginResult m => exact absurd hr List.not_mem_nil
  | loginOutResult m => exact absurd hr List.not_mem_nil
  | newLogin m => exact absurd hr List.not_mem_nil
  | heartS2C => exact absurd hr List.not_mem_nil
  | heartC2S => exact absurd hr List.not_mem_nil
  | dataHeader => exact absurd hr List.not_mem_nil

end Session

/-! ## The session -/

/-- Both ends of a connection and the network between them. -/
structure Connection where
  /-- The messages the client has given to `SendData`. -/
  sent : List Message
  /-- The bytes under way to the server. -/
  up : List UInt8
  server : MsgBuf.RecvState
  /-- The messages given to `addSendTask` so far. -/
  queued : List Message
  socket : ClientSocket
  /-- The bytes under way to the client. -/
  down : List UInt8
  client : MsgBuf.RecvState
  /-- What the client's handler has printed. -/
  printed : List Client.Line

/-- A connection and the task server. -/
structure Session extends Connection where
  /-- The queued messages whose task has not run. -/
  tasks : List Message

namespace Session

/-- What can happen. -/
inductive Act where
  /-- The client calls `SendData`. -/
  | send (m : Message)
  /-- `recvData` is called, and `recv` brings a chunk. -/
  | serverRead (chunk : List UInt8)
  /-- `recvData` is called, and `recv` reports the end of the connection or an error. -/
  | serverFail (ret : ℤ)
  /-- A turn of its loop.  A new `LoginResult` has `data` in the part that is not written. -/
  | serverTurn (data : Vector UInt8 92)
  /-- The task thread runs the next task. -/
  | task
  /-- `RecvData` is called, and `recv` brings a chunk. -/
  | clientRead (chunk : List UInt8)
  /-- `RecvData` is called, and `recv` reports the end of the connection or an error. -/
  | clientFail (ret : ℤ)
  /-- A turn of its loop. -/
  | clientTurn

variable (s : Session)

/-- A turn of the loop of `recvData`: the handler queues its replies, then the message is taken
out of the buffer. -/
def serverTurn (data : Vector UInt8 92) : Session :=
  if s.server.buf.hasMsg then
    match MyServer.onNetMsg s.server.buf.szMsgBuf with
    | none => { s with server := { s.server with phase := .undefined } }
    | some replies =>
      let messages := replies.map fun r => r.toMessage data
      { s with
        server := MsgBuf.turn s.server
        queued := s.queued ++ messages
        tasks := s.tasks ++ messages }
  else { s with server := MsgBuf.turn s.server }

/-- A turn of the loop of `RecvData`. -/
def clientTurn : Session :=
  if s.client.buf.hasMsg then
    match Client.onNetMsg s.client.buf.szMsgBuf with
    | none => { s with client := { s.client with phase := .undefined } }
    | some lines => { s with client := MsgBuf.turn s.client, printed := s.printed ++ lines }
  else { s with client := MsgBuf.turn s.client }

/-- The next task: `sendData`, where `send` takes the whole buffer. -/
def runTask : List Message → Option Session
  | [] => none
  | m :: tasks =>
    (s.socket.sendData m.toBytes [ClientSocket.sendBufSize]).map fun r =>
      { s with tasks := tasks, socket := r.socket, down := s.down ++ r.wire }

end Session

/-- The session, from the moment the connection is made.  Without its socket a client sends
nothing. -/
def session (mem mem' : Vector UInt8 msgBufSize) : Machine Session Session.Act where
  init :=
    { sent := [], up := [], server := (MsgBuf.receiver mem).init, queued := [], socket := .new,
      down := [], client := (MsgBuf.receiver mem').init, printed := [], tasks := [] }
  step s
    | .send m =>
      if s.client.phase ≠ .left then
        some { s with sent := s.sent ++ [m], up := s.up ++ m.toBytes }
      else none
    | .serverRead chunk =>
      if s.server.phase = .idle ∧ (Recv.bytes chunk).Legal s.server.buf.room ∧ chunk <+: s.up then
        some { s with
          server := MsgBuf.enter s.server (.bytes chunk)
          up := s.up.drop chunk.length }
      else none
    | .serverFail ret =>
      if s.server.phase = .idle ∧ (Recv.fail ret).Legal s.server.buf.room then
        some { s with server := MsgBuf.enter s.server (.fail ret) }
      else none
    | .serverTurn data => if s.server.phase = .extract then some (s.serverTurn data) else none
    | .task => s.runTask s.tasks
    | .clientRead chunk =>
      if s.client.phase = .idle ∧ (Recv.bytes chunk).Legal s.client.buf.room ∧ chunk <+: s.down then
        some { s with
          client := MsgBuf.enter s.client (.bytes chunk)
          down := s.down.drop chunk.length }
      else none
    | .clientFail ret =>
      if s.client.phase = .idle ∧ (Recv.fail ret).Legal s.client.buf.room then
        some { s with client := MsgBuf.enter s.client (.fail ret) }
      else none
    | .clientTurn => if s.client.phase = .extract then some s.clientTurn else none

namespace Session

/-- The messages that the server's handler has been called with. -/
def handled (s : Session) : List Message := s.sent.take s.server.delivered.length

/-- What the handler answers to some messages, one after the other. -/
def answersTo (ms : List Message) : List (Option (Cmd × ℤ)) :=
  (ms.flatMap Message.replies).map fun r => some (r.cmd, r.result)

/-- What the client's handler has been called with: commands and results. -/
def outcomes (s : Session) : List (Option (Cmd × ℤ)) :=
  s.client.delivered.map fun bytes => (Message.ofBytes bytes).bind Message.outcome

/-- What the client prints about a reply. -/
def shown : Option (Cmd × ℤ) → List Client.Line
  | some (.loginoutRet, result) =>
    [⟨some "CMD_LOGINOUT_RET", 8, some (BitVec.ofInt 32 result)⟩]
  | _ => []

/-- A task must not run when its message would cross the end of `_szSendBuf`. -/
def Fits (s : Session) : Act → Prop
  | .task => ∀ m ∈ s.tasks.head?, s.socket.lastSendPos + m.size ≤ ClientSocket.sendBufSize
  | _ => True

end Session
end EasyTcpServer
