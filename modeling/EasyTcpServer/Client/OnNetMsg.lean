import EasyTcpServer.Message.Messages

/-!
# `Client::onNetMsg`

The client counts every message and prints some.  The name it prints for a message is taken from
a table of six, indexed by `cmd`.  The table is that of an earlier `enum CMD`, without the two
heartbeats: `CMD_ERROR` is the sixth name there and the eighth command now.
-/

namespace EasyTcpServer
namespace Client

/-- The table `cmd_buf`. -/
def cmdBuf : List String :=
  ["CMD_LOGIN", "CMD_LOGIN_RET", "CMD_LOGINOUT", "CMD_LOGINOUT_RET", "CMD_NEW_LOGIN", "CMD_ERROR"]

/-- What is printed about a message: its name, if it has one, its length, and a result. -/
structure Line where
  name : Option String
  dataLength : ℤ
  result : Option (BitVec 32)
  deriving DecidableEq, Repr

/-- `onNetMsg(data_head)` for a pointer to these bytes: what is printed.  It has no result when
the index leaves the table. -/
def onNetMsg (buf : List UInt8) : Option (List Line) :=
  match Cmd.ofShort (cmd buf) with
  | some .loginoutRet =>
    cmdBuf[(cmd buf).toNat]?.map fun name =>
      [⟨some name, dataLength buf, some (Layout.word buf 4 4)⟩]
  | some .error => cmdBuf[(cmd buf).toNat]?.map fun name => [⟨some name, dataLength buf, none⟩]
  | some .login | some .loginRet | some .loginout | some .newLogin => some []
  | some .heartS2C | some .heartC2S | none => some [⟨none, dataLength buf, none⟩]

end Client
end EasyTcpServer
