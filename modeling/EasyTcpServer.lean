import EasyTcpServer.Server.HostilePeer
import EasyTcpServer.Buffer.SendStream
import EasyTcpServer.Server.Shutdown
import EasyTcpServer.Task.TaskThread
import EasyTcpServer.Server.Lifecycle
import EasyTcpServer.Server.ReplyTarget
import EasyTcpServer.Server.MessageOwnership
import EasyTcpServer.Buffer.MsgBufFraming
import EasyTcpServer.Buffer.ClientSocket
import EasyTcpServer.Server.OnNetMsg
import EasyTcpServer.Server.ReadySets
import EasyTcpServer.Pool.PoolLaw
import EasyTcpServer.Pool.RefCount
import EasyTcpServer.Server.CloseOrder
import EasyTcpServer.Server.ServerLoop
import EasyTcpServer.Server.CheckTime
import EasyTcpServer.Server.Expiry
import EasyTcpServer.Server.SelectSets
import EasyTcpServer.Server.FullBuffer
import EasyTcpServer.Server.PeerClose
import EasyTcpServer.Client.Reconnect
import EasyTcpServer.Pool.AllocSize
import EasyTcpServer.Buffer.SharedBuffer
import EasyTcpServer.Pool.ObjectPoolRun
import EasyTcpServer.ServerH.Balance
import EasyTcpServer.ServerH.SocketClose
import EasyTcpServer.ServerH.ClientCount
import EasyTcpServer.ServerH.WorkerChoice
import EasyTcpServer.Server.PopOverlap
import EasyTcpServer.Thread.SemaphoreWaits
import EasyTcpServer.Log.LogFiles
import EasyTcpServer.Log.LogTasks
import EasyTcpServer.Lib.Link
import EasyTcpServer.Client.SendData
import EasyTcpServer.Connection.Senders
import EasyTcpServer.Connection.Links
import EasyTcpServer.Lib.Layout
import EasyTcpServer.Message.Messages
import EasyTcpServer.Client.OnNetMsg
import EasyTcpServer.Connection.Session
import EasyTcpServer.Connection.Answers
import EasyTcpServer.Connection.Logins
import EasyTcpServer.Connection.Clients
import EasyTcpServer.Pool.PooledObjects
import EasyTcpServer.Server.FdSetSize
import EasyTcpServer.Client.Sockets
import EasyTcpServer.ServerH.SendTasks
import EasyTcpServer.Lib.Potential
import EasyTcpServer.Thread.CloseReturns
import EasyTcpServer.Task.TaskClose
import EasyTcpServer.Server.ServerStops
import EasyTcpServer.Server.ServerClose
import EasyTcpServer.Client.LoadTestLaw
import EasyTcpServer.Log.LogLines
import EasyTcpServer.Thread.ThreadWaits
