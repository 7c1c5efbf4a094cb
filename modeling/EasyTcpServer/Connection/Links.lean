import EasyTcpServer.Buffer.MsgBufFraming
import EasyTcpServer.Connection.Senders
import EasyTcpServer.Server.RecvData

/-!
# Both directions of a connection

The two programs and the two servers make four links: what a client sends, to `Cell_Server` of
`Cell_Server.h` or to that of `Server.h`, and what either server sends, to the client.  All of
them are links in the sense of `Lib.Link`, with the senders of `Connection.Senders`, so the
results about a sender and the results about a receiver combine.  The stream between two
programs is then nothing that anyone has to assume anything about: it is what the one has sent.

The receivers of 51200 bytes take every message there is.  That of `Cell_Server.h` has 8192
bytes, and longer messages must not be sent to it.
-/

namespace EasyTcpServer

open FramedReceiver (Phase)

/-! ## The receivers read what there is room for -/

namespace CellServer

variable (sendMem : Vector UInt8 sendBuffSize) (recvMem : Vector UInt8 recvBuffSize)
  (sockfd : Socket)

theorem newReceiver.reads : (newReceiver.implementation sendMem recvMem sockfd).Reads := by
  intro s chunk hgood hidle hne hle
  have hpos : 0 < chunk.length := List.length_pos_iff.mpr hne
  have hroom : s.client.recvBuff.room = recvBuffSize - (s.client.recvBuff.content.length : ℤ) :=
    RecvState.Good.room hgood
  have hle' : s.client.recvBuff.content.length + chunk.length ≤ recvBuffSize := hle
  have hlegal : (Recv.bytes chunk).Legal s.client.recvBuff.room := by
    rw [hroom]
    exact ⟨hpos, by omega⟩
  refine ⟨.recv (.bytes chunk), enter s (.bytes chunk), rfl, if_pos ⟨hidle, ?_, hlegal⟩⟩
  rw [hroom]
  omega

end CellServer

theorem MsgBuf.receiver.reads (mem : Vector UInt8 msgBufSize) :
    (MsgBuf.receiver.implementation mem).Reads := by
  intro s chunk hgood hidle hne hle
  have hvalid : s.buf.Valid := hgood
  have hpos : 0 < chunk.length := List.length_pos_iff.mpr hne
  have hlen := hvalid.length_content
  have hle' : s.buf.content.length + chunk.length ≤ msgBufSize := hle
  have hroom : s.buf.room = msgBufSize - s.buf.lastPos := rfl
  have hlegal : (Recv.bytes chunk).Legal s.buf.room := by
    rw [hroom]
    exact ⟨hpos, by omega⟩
  exact ⟨.recv (.bytes chunk), MsgBuf.enter s (.bytes chunk), rfl, if_pos ⟨hidle, hlegal⟩⟩

/-! ## Requests -/

section Requests

variable (c : Client) (sendMem : Vector UInt8 sendBuffSize) (recvMem : Vector UInt8 recvBuffSize)
  (sockfd : Socket) (mem : Vector UInt8 msgBufSize)

/-- A client and `Cell_Server` of `Cell_Server.h`. -/
def cellRequests : Machine (Link UInt8 Client.Outgoing CellServer.RecvState)
    (Link.Act Client.SendAct CellServer.RecvAct) :=
  link (c.sender recvBuffSize) (CellServer.newReceiver.implementation sendMem recvMem sockfd)

/-- A client and `Cell_Server` of `Server.h`. -/
def serverRequests : Machine (Link UInt8 Client.Outgoing MsgBuf.RecvState)
    (Link.Act Client.SendAct MsgBuf.RecvAct) :=
  link (c.sender msgBufSize) (MsgBuf.receiver.implementation mem)

/-- **Requests arrive.**  As long as no `send` of the client stops short and every message fits
the server's buffer: in every state of either link the messages handed to `onNetMsg` are the
first that were sent, byte for byte and in order, the rest of the bytes is in the buffer or
under way, and the server, however the network cuts the stream, gets to the end of it. -/
theorem requests_arrive :
    (∀ s, (cellRequests c sendMem recvMem sockfd).ReachWithin (Link.Ok (c.sender recvBuffSize)) s →
        Link.Delivers (c.sender recvBuffSize)
          (CellServer.newReceiver.implementation sendMem recvMem sockfd) s) ∧
      ∀ s, (serverRequests c mem).ReachWithin (Link.Ok (c.sender msgBufSize)) s →
        Link.Delivers (c.sender msgBufSize) (MsgBuf.receiver.implementation mem) s :=
  ⟨fun _ h => Link.delivers (by decide) (by decide)
      (CellServer.newReceiver.reads sendMem recvMem sockfd) h,
    fun _ h => Link.delivers (by decide) (by decide) (MsgBuf.receiver.reads mem) h⟩

end Requests

/-! ## Replies -/

section Replies

variable (sendMem : Vector UInt8 sendBuffSize) (mem : Vector UInt8 msgBufSize)

/-- The send buffer of a `Cell_Client`, and the client. -/
def cellReplies : Machine (Link UInt8 SendStream.State MsgBuf.RecvState)
    (Link.Act SendStream.Act MsgBuf.RecvAct) :=
  link (SendStream.sender sendMem (by decide) msgBufSize) (MsgBuf.receiver.implementation mem)

/-- A `Client_socket` of `Server.h`, and the client. -/
def serverReplies : Machine (Link UInt8 ClientSocket.Stream MsgBuf.RecvState)
    (Link.Act (List UInt8) MsgBuf.RecvAct) :=
  link (ClientSocket.sender msgBufSize) (MsgBuf.receiver.implementation mem)

/-- **Replies arrive.**  As long as `send` takes the whole send buffer, and no message crosses
the end of `_szSendBuf`: in every state of either link the messages handed to the client's
`onNetMsg` are the first that were accepted for sending, and the client gets to the end of what
has been put on the wire; when nothing is left in the send buffer, that is all of them. -/
theorem replies_arrive :
    (∀ s, (cellReplies sendMem mem).ReachWithin
          (Link.Ok (SendStream.sender sendMem (by decide) msgBufSize)) s →
        Link.Delivers (SendStream.sender sendMem (by decide) msgBufSize)
          (MsgBuf.receiver.implementation mem) s) ∧
      ∀ s, (serverReplies mem).ReachWithin (Link.Ok (ClientSocket.sender msgBufSize)) s →
        Link.Delivers (ClientSocket.sender msgBufSize) (MsgBuf.receiver.implementation mem) s :=
  ⟨fun _ h => Link.delivers (by decide) (by decide) (MsgBuf.receiver.reads mem) h,
    fun _ h => Link.delivers (by decide) (by decide) (MsgBuf.receiver.reads mem) h⟩

end Replies

/-! ## One message -/

/-- When the sender holds nothing back, some run of the receiver hands on everything. -/
theorem Link.exists_delivered {τ κ σ ι : Type*} {N : ℕ} {S : Machine τ κ} {M : Machine σ ι}
    {T : Sender S messageFormat N} {I : FramedReceiver.Implementation M messageFormat N}
    (hall : ∀ s, (link T I).ReachWithin (Link.Ok T) s → Link.Delivers T I s)
    {s : Link UInt8 τ σ} (hs : (link T I).ReachWithin (Link.Ok T) s)
    (hleft : (I.abs s.receiver).phase ≠ .left) (hheld : T.held s.sender = []) :
    ∃ t, (link T I).Reachable t ∧ t.sender = s.sender ∧
      (I.abs t.receiver).delivered = T.accepted s.sender := by
  obtain ⟨is, t, hrun, hsender, -, hdelivered⟩ := (hall s hs).completes hleft
  exact ⟨t, hs.reachable.of_run hrun, hsender, hdelivered hheld⟩

theorem frame_four_bytes : messageFormat.Frame [4, 0, 0, 0] := ⟨by decide, by decide⟩

/-- A message of four bytes, sent to either server, is handed on there. -/
theorem requests_arrive_four :
    (∃ s, (cellRequests { Client.new with sock := 3 } (.replicate _ 0) (.replicate _ 0) 3).Reachable
          s ∧ s.sender.passed = [[4, 0, 0, 0]] ∧ s.receiver.delivered = [[4, 0, 0, 0]]) ∧
      ∃ s, (serverRequests { Client.new with sock := 3 } (.replicate _ 0)).Reachable s ∧
        s.sender.passed = [[4, 0, 0, 0]] ∧ s.receiver.delivered = [[4, 0, 0, 0]] := by
  obtain ⟨hcell, hserver⟩ := requests_arrive { Client.new with sock := 3 } (.replicate _ 0)
    (.replicate _ 0) 3 (.replicate _ 0)
  constructor
  · obtain ⟨t, ht, hsender, hdelivered⟩ := Link.exists_delivered hcell
      (.step (i := .send (.sendData [4, 0, 0, 0] 4)) .init
        ⟨⟨frame_four_bytes, by decide⟩, .inr rfl⟩ rfl) Phase.noConfusion rfl
    exact ⟨t, ht, hsender ▸ rfl, hdelivered⟩
  · obtain ⟨t, ht, hsender, hdelivered⟩ := Link.exists_delivered hserver
      (.step (i := .send (.sendData [4, 0, 0, 0] 4)) .init
        ⟨⟨frame_four_bytes, by decide⟩, .inr rfl⟩ rfl) Phase.noConfusion rfl
    exact ⟨t, ht, hsender ▸ rfl, hdelivered⟩

/-- A message of four bytes, pushed and written, is handed on to the client.  In `Server.h` it
has been accepted, and the link delivers. -/
theorem replies_arrive_four :
    (∃ s, (cellReplies (.replicate _ 0) (.replicate _ 0)).Reachable s ∧
        s.sender.accepted = [[4, 0, 0, 0]] ∧ s.receiver.delivered = [[4, 0, 0, 0]]) ∧
      ∃ s, (serverReplies (.replicate _ 0)).Reachable s ∧ s.sender.passed = [[4, 0, 0, 0]] ∧
        Link.Delivers (ClientSocket.sender msgBufSize)
          (MsgBuf.receiver.implementation (.replicate _ 0)) s := by
  obtain ⟨hcell, hserver⟩ := replies_arrive (.replicate _ 0) (.replicate _ 0)
  constructor
  · obtain ⟨u, v, hpush, hlast, hwrite, -, hcontent, -, haccepted⟩ :=
      SendStream.exists_push_write (.replicate sendBuffSize 0) (by decide) [4, 0, 0, 0]
        (by decide) (by decide) (r := 4) (by decide) (by decide)
    have hs := Link.reachWithin_send
      (T := SendStream.sender (.replicate _ 0) (by decide) msgBufSize)
      (I := MsgBuf.receiver.implementation (.replicate _ 0)) .init (i := .push [4, 0, 0, 0] 4)
      ⟨⟨frame_four_bytes, by decide⟩, by decide⟩ hpush
    have ht := Link.reachWithin_send hs (i := .write 4) hlast.symm hwrite
    obtain ⟨t, hreach, hsender, hdelivered⟩ :=
      Link.exists_delivered hcell ht Phase.noConfusion hcontent
    exact ⟨t, hreach, by rw [hsender, haccepted], hdelivered.trans haccepted⟩
  · obtain ⟨u, hstep, -, hpassed, -⟩ :=
      ClientSocket.Stream.good_init.step
        (show ClientSocket.Legal [4, 0, 0, 0] from ⟨by decide, by decide⟩)
    have hs := Link.reachWithin_send (T := ClientSocket.sender msgBufSize)
      (I := MsgBuf.receiver.implementation (.replicate _ 0)) .init (i := [4, 0, 0, 0])
      ⟨⟨frame_four_bytes, by decide⟩, by decide⟩ hstep
    exact ⟨_, hs.reachable, hpassed, hserver _ hs⟩

end EasyTcpServer
