import EasyTcpServer.Connection.TaskServer

/-!
# The answers to the requests

What holds of a session (`Connection.Session`) in every state it can get to.  Each party keeps
its own part: the links do (`Lib.Link`), the handler answers a message by its fields, and the
replies go through the task server and `sendData` in the order of the requests.

* `Inv`: what holds throughout, and one lemma for each kind of step.
* `session_answers`: the results that the client's handler finds are those of the first answers
  to what has been sent.
-/

namespace EasyTcpServer

open FramedReceiver (Carried Phase rank)
open MyServer (Holds)

namespace Session

/-! ## Messages that are carried -/

section Receivers

variable {ms : List Message} {N : ℕ} {channel : List UInt8} {r : FramedReceiver.State UInt8}

/-- The messages handed on, and those in the buffer and under way. -/
theorem exists_messages
    (h : Carried messageFormat N (ms.map Message.toBytes) channel r) :
    ∃ ks ls, ms = ks ++ ls ∧ r.delivered = ks.map Message.toBytes ∧
      r.pending ++ channel = Message.stream ls := by
  obtain ⟨rest, hrest, hpending⟩ := h.exists_rest (by decide)
  obtain ⟨ks, ls, hms, hks, hls⟩ := List.map_eq_append_iff.mp hrest
  refine ⟨ks, ls, hms, hks.symm, ?_⟩
  rw [hpending, ← hls, Message.stream]

/-- The next message, when the buffer has a complete one. -/
theorem exists_front (h : Carried messageFormat N (ms.map Message.toBytes) channel r)
    (hcomplete : messageFormat.Complete r.pending) :
    ∃ ks m ls, ms = ks ++ m :: ls ∧ r.delivered = ks.map Message.toBytes ∧
      m.toBytes <+: r.pending ∧
        r.pending.take (messageFormat.size r.pending) = m.toBytes := by
  obtain ⟨bytes, rest, hrest, hfront, hsize⟩ := h.front (by decide) hcomplete
  obtain ⟨ks, ls', hms, hks, hls'⟩ := List.map_eq_append_iff.mp hrest
  obtain ⟨m, ls, rfl, rfl, -⟩ := List.map_eq_cons_iff.mp hls'
  refine ⟨ks, m, ls, hms, hks.symm, hfront, ?_⟩
  rw [hsize]
  exact (List.prefix_iff_eq_take.mp hfront).symm

/-- A turn of a receiver's loop: a message is taken out, and it stands in front of the buffer;
or the loop is left. -/
theorem turn_cases {r : MsgBuf.RecvState} (hvalid : r.buf.Valid) (hphase : r.phase = .extract)
    (h : Carried messageFormat msgBufSize (ms.map Message.toBytes) channel r.abs) :
    (r.buf.hasMsg = true ∧ ∃ ks m ls, ms = ks ++ m :: ls ∧
        r.delivered = ks.map Message.toBytes ∧ Holds r.buf.szMsgBuf m.toBytes ∧
          (MsgBuf.turn r).delivered = (ks ++ [m]).map Message.toBytes) ∨
      (r.buf.hasMsg = false ∧ (MsgBuf.turn r).delivered = r.delivered) := by
  obtain ⟨-, habs⟩ := hvalid.turn hphase
  have hturn := h.step (i := .turn) habs
  obtain ⟨-, ⟨hcomplete, -, ht⟩ | ⟨-, -, ht⟩ | ⟨hincomplete, ht⟩⟩ :=
    FramedReceiver.step_turn_cases habs
  · obtain ⟨ks, m, ls, hms, hks, hfront, htake⟩ := exists_front h hcomplete
    refine .inl ⟨hvalid.hasMsg_iff.mpr hcomplete, ks, m, ls, hms, hks,
      ⟨hvalid.length_szMsgBuf, hfront.trans (List.take_prefix _ _)⟩, ?_⟩
    have hdelivered := congrArg FramedReceiver.State.delivered ht
    rw [FramedReceiver.State.cut, htake, hks] at hdelivered
    rw [List.map_append]
    exact hdelivered
  · -- the copy would leave the array
    refine absurd ?_ (hturn.phase_ne_undefined (by decide))
    rw [ht]
  · refine .inr ⟨Bool.eq_false_iff.mpr (mt hvalid.hasMsg_iff.mp hincomplete), ?_⟩
    exact congrArg FramedReceiver.State.delivered ht

/-- A read hands nothing on. -/
theorem enter_fields {r : MsgBuf.RecvState} (hvalid : r.buf.Valid) (hphase : r.phase = .idle)
    {chunk : List UInt8} (hlegal : (Recv.bytes chunk).Legal r.buf.room) :
    (MsgBuf.enter r (.bytes chunk)).received = r.received ++ chunk ∧
      (MsgBuf.enter r (.bytes chunk)).delivered = r.delivered := by
  obtain ⟨-, habs⟩ := hvalid.enter_bytes hphase hlegal
  obtain ⟨-, -, ht⟩ := FramedReceiver.step_arrive_cases habs
  exact ⟨congrArg FramedReceiver.State.received ht, congrArg FramedReceiver.State.delivered ht⟩

/-- A read that brings nothing ends the reading and leaves the rest alone. -/
theorem enter_fail (r : MsgBuf.RecvState) (ret : ℤ) :
    MsgBuf.enter r (.fail ret) = { r with phase := .left } := by
  simp [MsgBuf.enter, MsgBuf.append]

/-- A chunk that has been read is taken off the channel. -/
theorem Reads.carried {r : MsgBuf.RecvState} {chunk xs ys : List UInt8} (hvalid : r.buf.Valid)
    (hphase : r.phase = .idle) (hlegal : (Recv.bytes chunk).Legal r.buf.room)
    (hchunk : chunk <+: xs)
    (h : Carried messageFormat msgBufSize (ms.map Message.toBytes) (xs ++ ys) r.abs) :
    Carried messageFormat msgBufSize (ms.map Message.toBytes) (xs.drop chunk.length ++ ys)
      (MsgBuf.enter r (.bytes chunk)).abs := by
  obtain ⟨rest, rfl⟩ := hchunk
  rw [List.drop_left]
  rw [List.append_assoc] at h
  exact h.step (i := .arrive chunk) (hvalid.enter_bytes hphase hlegal).2

end Receivers

/-! ## The invariant -/

/-- What holds throughout. -/
structure Inv (s : Session) : Prop where
  serverValid : s.server.buf.Valid
  clientValid : s.client.buf.Valid
  socket : s.socket.Valid
  requests : Carried messageFormat msgBufSize (s.sent.map Message.toBytes) s.up s.server.abs
  queued : s.queued.map Message.outcome = answersTo s.handled
  replies : Carried messageFormat msgBufSize (s.queued.map Message.toBytes)
    (s.down ++ (s.socket.content ++ Message.stream s.tasks)) s.client.abs
  printed : s.printed = s.outcomes.flatMap shown

variable {s : Session}

theorem handled_eq {ks : List Message} (hsent : ks <+: s.sent)
    (hdelivered : s.server.delivered = ks.map Message.toBytes) : s.handled = ks := by
  rw [handled, hdelivered, List.length_map]
  exact (List.prefix_iff_eq_take.mp hsent).symm

theorem outcomes_eq {ks : List Message} (h : s.client.delivered = ks.map Message.toBytes) :
    s.outcomes = ks.map Message.outcome := by
  rw [outcomes, h, List.map_map]
  refine List.map_congr_left fun m _ => ?_
  have hm := m.ofBytes_toBytes []
  rw [List.append_nil] at hm
  rw [Function.comp_apply, hm, Option.bind_some]

theorem answersTo_append (ms ns : List Message) :
    answersTo (ms ++ ns) = answersTo ms ++ answersTo ns := by
  rw [answersTo, List.flatMap_append, List.map_append, answersTo, answersTo]

/-- The messages the server's handler has been called with. -/
theorem Inv.delivered_eq (h : Inv s) : s.server.delivered = s.handled.map Message.toBytes := by
  obtain ⟨ks, ls, hsent, hks, -⟩ := exists_messages h.requests
  rw [handled_eq ⟨ls, hsent.symm⟩ hks]
  exact hks

/-- What is answered is an answer. -/
theorem Inv.outcome_of_mem_queued (h : Inv s) {m : Message} (hm : m ∈ s.queued) :
    ∃ p, m.outcome = some p := by
  have hmem : m.outcome ∈ answersTo s.handled := by
    rw [← h.queued]
    exact List.mem_map_of_mem hm
  obtain ⟨r, -, hr⟩ := List.mem_map.mp hmem
  exact ⟨_, hr.symm⟩

/-- The client's handler, for a reply with something behind it. -/
theorem onNetMsg_of_outcome {m : Message} {p : Cmd × ℤ} (h : m.outcome = some p)
    (rest : List UInt8) :
    Client.onNetMsg (m.toBytes ++ rest) = some (shown m.outcome) := by
  have hcmd := m.cmd_toBytes_append rest
  cases m with
  | loginResult m =>
    rw [Client.onNetMsg, hcmd, Cmd.ofShort_toShort]
    rfl
  | loginOutResult m =>
    have hlength : dataLength ((Message.loginOutResult m).toBytes ++ rest) = 8 := by
      have hframe := (Message.loginOutResult m).frame.declared
      rw [messageFormat_declared, Message.length_toBytes] at hframe
      rw [dataLength_append _ _ (Message.length_toBytes _ ▸ Message.four_le_size _), hframe]
      rfl
    have hword : Layout.word ((Message.loginOutResult m).toBytes ++ rest) 4 4 = m.result := by
      rw [Message.toBytes, List.append_assoc,
        Layout.word_append_of_le (Message.length_header _).le, Message.length_header]
      exact Layout.word_append_self (n := 4) m.result rest
    rw [Client.onNetMsg, hcmd, Cmd.ofShort_toShort, hlength]
    simp only [Message.cmd, hword, Message.outcome, shown, BitVec.ofInt_toInt]
    rfl
  | login m => exact absurd h.symm (Option.some_ne_none p)
  | loginOut m => exact absurd h.symm (Option.some_ne_none p)
  | newLogin m => exact absurd h.symm (Option.some_ne_none p)
  | heartS2C => exact absurd h.symm (Option.some_ne_none p)
  | heartC2S => exact absurd h.symm (Option.some_ne_none p)
  | dataHeader => exact absurd h.symm (Option.some_ne_none p)

/-! ## What the steps do -/

/-- A turn of the server's loop: at most one message is handled, and its answers are queued. -/
theorem Inv.exists_serverTurn (h : Inv s) (hphase : s.server.phase = .extract)
    (data : Vector UInt8 92) :
    ∃ ks ms : List Message, s.serverTurn data = { s with
        server := MsgBuf.turn s.server
        queued := s.queued ++ ms
        tasks := s.tasks ++ ms } ∧
      ms = (ks.flatMap Message.replies).map (fun r => r.toMessage data) ∧ ks.length ≤ 1 ∧
        s.handled ++ ks <+: s.sent ∧
          (MsgBuf.turn s.server).delivered = (s.handled ++ ks).map Message.toBytes := by
  obtain ⟨hmsg, ks, m, ls, hsent, hks, hholds, hdelivered⟩ | ⟨hmsg, hdelivered⟩ :=
    turn_cases h.serverValid hphase h.requests
  · have hhandled := handled_eq ⟨m :: ls, hsent.symm⟩ hks
    refine ⟨[m], m.replies.map fun r => r.toMessage data, ?_, ?_, le_refl 1, ?_, ?_⟩
    · simp only [Session.serverTurn, hmsg, if_true, onNetMsg_of_holds m hholds]
    · rw [List.flatMap_singleton]
    · rw [hhandled, hsent]
      exact ⟨ls, (List.append_cons ks m ls).symm⟩
    · rw [hhandled]
      exact hdelivered
  · refine ⟨[], [], ?_, rfl, Nat.zero_le 1, ?_, ?_⟩
    · simp only [Session.serverTurn, hmsg, Bool.false_eq_true, if_false, List.append_nil]
    · rw [List.append_nil, handled]
      exact List.take_prefix _ _
    · rw [List.append_nil, hdelivered]
      exact h.delivered_eq

/-- A turn of the client's loop: at most one reply is handled, and what it says is printed. -/
theorem Inv.exists_clientTurn (h : Inv s) (hphase : s.client.phase = .extract) :
    ∃ ks ms : List Message, s.clientTurn = { s with
        client := MsgBuf.turn s.client
        printed := s.printed ++ (ms.map Message.outcome).flatMap shown } ∧
      s.client.delivered = ks.map Message.toBytes ∧
        (MsgBuf.turn s.client).delivered = (ks ++ ms).map Message.toBytes := by
  obtain ⟨hmsg, ks, m, ls, hqueued, hks, hholds, hdelivered⟩ | ⟨hmsg, hdelivered⟩ :=
    turn_cases h.clientValid hphase h.replies
  · obtain ⟨p, hp⟩ := h.outcome_of_mem_queued (m := m)
      (hqueued ▸ List.mem_append_right _ List.mem_cons_self)
    obtain ⟨rest, hrest⟩ := hholds.front
    have hlines := onNetMsg_of_outcome hp rest
    rw [hrest] at hlines
    refine ⟨ks, [m], ?_, hks, hdelivered⟩
    simp only [Session.clientTurn, hmsg, if_true, hlines, List.map_singleton,
      List.flatMap_singleton]
  · obtain ⟨ks, ls, -, hks, -⟩ := exists_messages h.replies
    refine ⟨ks, [], ?_, hks, ?_⟩
    · simp only [Session.clientTurn, hmsg, Bool.false_eq_true, if_false, List.map_nil,
        List.flatMap_nil, List.append_nil]
    · rw [List.append_nil, hdelivered]
      exact hks

/-- A task: the message goes behind the stream, as far as the end of the send buffer. -/
theorem Inv.exists_runTask (h : Inv s) {m : Message} {tasks : List Message}
    (htasks : s.tasks = m :: tasks) :
    ∃ r : SendResult, s.runTask s.tasks = some { s with
        tasks := tasks
        socket := r.socket
        down := s.down ++ r.wire } ∧
      r.socket.Valid ∧ ClientSocket.sendBufSize ∣ r.wire.length ∧
        r.wire ++ r.socket.content = s.socket.content ++
          m.toBytes.take (ClientSocket.sendBufSize - s.socket.lastSendPos).toNat := by
  have hlength : dataLength m.toBytes = m.size := by
    have hframe := m.frame.declared
    rwa [messageFormat_declared, m.length_toBytes] at hframe
  have hlegal : ClientSocket.Legal m.toBytes := by
    have hfour := m.four_le_size
    rw [ClientSocket.Legal, hlength, m.length_toBytes]
    omega
  obtain ⟨r, hr, -, hvalid, hdvd, hwire⟩ := h.socket.sendData hlegal
  have hmessage : ClientSocket.message m.toBytes = m.toBytes := by
    rw [ClientSocket.message, hlength]
    exact List.take_of_length_le (by rw [m.length_toBytes]; omega)
  rw [hmessage] at hwire
  refine ⟨r, ?_, hvalid, hdvd, hwire⟩
  rw [htasks, Session.runTask, hr, Option.map_some]

/-- Where a message ends inside the buffer, the bytes that are not yet read stay the same. -/
theorem Inv.stream_runTask {m : Message} {tasks : List Message} (htasks : s.tasks = m :: tasks)
    (hfits : s.socket.lastSendPos + m.size ≤ ClientSocket.sendBufSize) {r : SendResult}
    (hwire : r.wire ++ r.socket.content = s.socket.content ++
      m.toBytes.take (ClientSocket.sendBufSize - s.socket.lastSendPos).toNat) :
    s.down ++ (s.socket.content ++ Message.stream s.tasks) =
      (s.down ++ r.wire) ++ (r.socket.content ++ Message.stream tasks) := by
  rw [List.take_of_length_le (by rw [m.length_toBytes]; omega)] at hwire
  rw [htasks, Message.stream_cons, List.append_assoc, ← List.append_assoc r.wire, hwire,
    List.append_assoc]

section Steps

variable {mem mem' : Vector UInt8 msgBufSize} {t : Session}

theorem step_send {m : Message} (h : (session mem mem').step s (.send m) = some t) :
    s.client.phase ≠ .left ∧ t = { s with sent := s.sent ++ [m], up := s.up ++ m.toBytes } :=
  Machine.guarded_eq_some.mp h

theorem step_send_eq (mem mem' : Vector UInt8 msgBufSize) (m : Message)
    (hopen : s.client.phase ≠ .left) : (session mem mem').step s (.send m) =
      some { s with sent := s.sent ++ [m], up := s.up ++ m.toBytes } :=
  if_pos hopen

theorem step_serverRead {chunk : List UInt8}
    (h : (session mem mem').step s (.serverRead chunk) = some t) :
    s.server.phase = .idle ∧ (Recv.bytes chunk).Legal s.server.buf.room ∧ chunk <+: s.up ∧
      t = { s with
        server := MsgBuf.enter s.server (.bytes chunk)
        up := s.up.drop chunk.length } := by
  obtain ⟨⟨hphase, hlegal, hchunk⟩, rfl⟩ := Machine.guarded_eq_some.mp h
  exact ⟨hphase, hlegal, hchunk, rfl⟩

/-- A read of what there is room for is possible. -/
theorem exists_serverRead (mem mem' : Vector UInt8 msgBufSize) {chunk : List UInt8}
    (hphase : s.server.phase = .idle) (hlegal : (Recv.bytes chunk).Legal s.server.buf.room)
    (hchunk : chunk <+: s.up) :
    ∃ t, (session mem mem').step s (.serverRead chunk) = some t ∧ t.sent = s.sent ∧
      t.up = s.up.drop chunk.length :=
  ⟨_, if_pos ⟨hphase, hlegal, hchunk⟩, rfl, rfl⟩

theorem step_serverFail {ret : ℤ} (h : (session mem mem').step s (.serverFail ret) = some t) :
    s.server.phase = .idle ∧ t = { s with server := MsgBuf.enter s.server (.fail ret) } := by
  have h := Machine.guarded_eq_some.mp h
  exact ⟨h.1.1, h.2⟩

theorem step_serverTurn {data : Vector UInt8 92}
    (h : (session mem mem').step s (.serverTurn data) = some t) :
    s.server.phase = .extract ∧ t = s.serverTurn data :=
  Machine.guarded_eq_some.mp h

theorem step_task (hinv : Inv s) (h : (session mem mem').step s .task = some t) :
    ∃ m tasks, s.tasks = m :: tasks ∧ ∃ r : SendResult,
      t = { s with tasks := tasks, socket := r.socket, down := s.down ++ r.wire } ∧
        r.socket.Valid ∧ ClientSocket.sendBufSize ∣ r.wire.length ∧
          r.wire ++ r.socket.content = s.socket.content ++
            m.toBytes.take (ClientSocket.sendBufSize - s.socket.lastSendPos).toNat := by
  have hrun : s.runTask s.tasks = some t := h
  cases htasks : s.tasks with
  | nil =>
    rw [htasks] at hrun
    exact absurd hrun.symm (Option.some_ne_none t)
  | cons m tasks =>
    obtain ⟨r, hr, hr'⟩ := hinv.exists_runTask htasks
    exact ⟨m, tasks, rfl, r, Option.some.inj (hrun.symm.trans hr), hr'⟩

theorem step_clientRead {chunk : List UInt8}
    (h : (session mem mem').step s (.clientRead chunk) = some t) :
    s.client.phase = .idle ∧ (Recv.bytes chunk).Legal s.client.buf.room ∧ chunk <+: s.down ∧
      t = { s with
        client := MsgBuf.enter s.client (.bytes chunk)
        down := s.down.drop chunk.length } := by
  obtain ⟨⟨hphase, hlegal, hchunk⟩, rfl⟩ := Machine.guarded_eq_some.mp h
  exact ⟨hphase, hlegal, hchunk, rfl⟩

theorem step_clientFail {ret : ℤ} (h : (session mem mem').step s (.clientFail ret) = some t) :
    s.client.phase = .idle ∧ t = { s with client := MsgBuf.enter s.client (.fail ret) } := by
  have h := Machine.guarded_eq_some.mp h
  exact ⟨h.1.1, h.2⟩

theorem step_clientTurn (h : (session mem mem').step s .clientTurn = some t) :
    s.client.phase = .extract ∧ t = s.clientTurn :=
  Machine.guarded_eq_some.mp h

/-- The message of the next task fits. -/
theorem Fits.head {m : Message} {tasks : List Message} (h : s.Fits .task)
    (htasks : s.tasks = m :: tasks) :
    s.socket.lastSendPos + m.size ≤ ClientSocket.sendBufSize :=
  h m (by rw [htasks, List.head?_cons]; rfl)

end Steps

/-! ## What the steps keep -/

theorem inv_init (mem mem' : Vector UInt8 msgBufSize) : Inv (session mem mem').init where
  serverValid := MsgBuf.valid_new mem
  clientValid := MsgBuf.valid_new mem'
  socket := ClientSocket.valid_new
  requests := by
    have hinit := FramedReceiver.carried_init (F := messageFormat) (N := msgBufSize) (by decide)
    rwa [← (MsgBuf.receiver.implementation mem).abs_init] at hinit
  queued := rfl
  replies := by
    have hinit := FramedReceiver.carried_init (F := messageFormat) (N := msgBufSize) (by decide)
    rwa [← (MsgBuf.receiver.implementation mem').abs_init] at hinit
  printed := rfl

theorem Inv.send (h : Inv s) (m : Message) :
    Inv { s with sent := s.sent ++ [m], up := s.up ++ m.toBytes } where
  serverValid := h.serverValid
  clientValid := h.clientValid
  socket := h.socket
  requests := by
    rw [List.map_append, ← List.flatten_singleton (l := m.toBytes)]
    exact h.requests.sendAll (Message.frame_of_mem [m])
  queued := by
    have hfirst : s.handled <+: s.sent ++ [m] :=
      (List.take_prefix _ _).trans (List.prefix_append _ _)
    have hhandled : handled { s with sent := s.sent ++ [m], up := s.up ++ m.toBytes } = s.handled :=
      handled_eq hfirst h.delivered_eq
    rw [hhandled]
    exact h.queued
  replies := h.replies
  printed := h.printed

theorem Inv.serverRead (h : Inv s) {chunk : List UInt8} (hphase : s.server.phase = .idle)
    (hlegal : (Recv.bytes chunk).Legal s.server.buf.room) (hchunk : chunk <+: s.up) :
    Inv { s with
      server := MsgBuf.enter s.server (.bytes chunk)
      up := s.up.drop chunk.length } := by
  obtain ⟨-, hdelivered⟩ := enter_fields h.serverValid hphase hlegal
  refine ⟨(h.serverValid.enter_bytes hphase hlegal).1, h.clientValid, h.socket, ?_, ?_, h.replies,
    h.printed⟩
  · have hrequests := h.requests
    rw [← List.append_nil s.up] at hrequests
    have hread := Reads.carried h.serverValid hphase hlegal hchunk hrequests
    rwa [List.append_nil] at hread
  · rw [handled, hdelivered]
    exact h.queued

theorem Inv.clientRead (h : Inv s) {chunk : List UInt8} (hphase : s.client.phase = .idle)
    (hlegal : (Recv.bytes chunk).Legal s.client.buf.room) (hchunk : chunk <+: s.down) :
    Inv { s with client := MsgBuf.enter s.client (.bytes chunk),
                 down := s.down.drop chunk.length } := by
  obtain ⟨-, hdelivered⟩ := enter_fields h.clientValid hphase hlegal
  refine ⟨h.serverValid, (h.clientValid.enter_bytes hphase hlegal).1, h.socket, h.requests,
    h.queued, Reads.carried h.clientValid hphase hlegal hchunk h.replies, ?_⟩
  rw [outcomes, hdelivered]
  exact h.printed

theorem Inv.serverFail (h : Inv s) (hphase : s.server.phase = .idle) (ret : ℤ) :
    Inv { s with server := MsgBuf.enter s.server (.fail ret) } := by
  have hfail : (MsgBuf.enter s.server (.fail ret)).buf.Valid ∧ _ := h.serverValid.enter_fail hphase
  obtain ⟨hvalid, habs⟩ := hfail
  refine ⟨hvalid, h.clientValid, h.socket, h.requests.step (i := .quit) habs, ?_, h.replies,
    h.printed⟩
  rw [handled, enter_fail]
  exact h.queued

theorem Inv.clientFail (h : Inv s) (hphase : s.client.phase = .idle) (ret : ℤ) :
    Inv { s with client := MsgBuf.enter s.client (.fail ret) } := by
  have hfail : (MsgBuf.enter s.client (.fail ret)).buf.Valid ∧ _ := h.clientValid.enter_fail hphase
  obtain ⟨hvalid, habs⟩ := hfail
  refine ⟨h.serverValid, hvalid, h.socket, h.requests, h.queued, h.replies.step (i := .quit) habs,
    ?_⟩
  rw [outcomes, enter_fail]
  exact h.printed

/-- A message that ends inside the send buffer is not cut. -/
theorem Inv.task (h : Inv s) {m : Message} {tasks : List Message} (htasks : s.tasks = m :: tasks)
    (hfits : s.socket.lastSendPos + m.size ≤ ClientSocket.sendBufSize) {r : SendResult}
    (hvalid : r.socket.Valid)
    (hwire : r.wire ++ r.socket.content = s.socket.content ++
      m.toBytes.take (ClientSocket.sendBufSize - s.socket.lastSendPos).toNat) :
    Inv { s with tasks := tasks, socket := r.socket, down := s.down ++ r.wire } := by
  refine ⟨h.serverValid, h.clientValid, hvalid, h.requests, h.queued, ?_, h.printed⟩
  have hreplies := h.replies
  rwa [Inv.stream_runTask htasks hfits hwire] at hreplies

theorem Inv.serverTurn (h : Inv s) (hphase : s.server.phase = .extract)
    (data : Vector UInt8 92) : Inv (s.serverTurn data) := by
  obtain ⟨ks, ms, hturn, hms, -, hfirst, hdelivered⟩ := h.exists_serverTurn hphase data
  rw [hturn]
  refine ⟨(h.serverValid.turn hphase).1, h.clientValid, h.socket,
    h.requests.step (i := .turn) (h.serverValid.turn hphase).2, ?_, ?_, h.printed⟩
  · have hhandled : s.sent.take (MsgBuf.turn s.server).delivered.length = s.handled ++ ks := by
      rw [hdelivered, List.length_map]
      exact (List.prefix_iff_eq_take.mp hfirst).symm
    show (s.queued ++ ms).map Message.outcome =
      answersTo (s.sent.take (MsgBuf.turn s.server).delivered.length)
    rw [hhandled, answersTo_append, ← h.queued, List.map_append, hms, List.map_map]
    congr 1
    refine List.map_congr_left fun r hr => ?_
    obtain ⟨m, -, hr⟩ := List.mem_flatMap.mp hr
    exact outcome_of_mem_replies hr data
  · have hsend := h.replies.sendAll (Message.frame_of_mem ms)
    rw [← List.map_append] at hsend
    show Carried _ _ _ (s.down ++ (s.socket.content ++ Message.stream (s.tasks ++ ms))) _
    rw [Message.stream_append]
    simpa only [Message.stream, List.append_assoc] using hsend

theorem Inv.clientTurn (h : Inv s) (hphase : s.client.phase = .extract) : Inv s.clientTurn := by
  obtain ⟨ks, ms, hturn, hks, hdelivered⟩ := h.exists_clientTurn hphase
  rw [hturn]
  refine ⟨h.serverValid, (h.clientValid.turn hphase).1, h.socket, h.requests, h.queued,
    h.replies.step (i := .turn) (h.clientValid.turn hphase).2, ?_⟩
  rw [outcomes_eq hdelivered, List.map_append, List.flatMap_append, ← outcomes_eq hks, ← h.printed]

/-- A step of the session, where no message crosses the end of `_szSendBuf`. -/
theorem Inv.step {mem mem' : Vector UInt8 msgBufSize} {i : Act} {t : Session} (h : Inv s)
    (hfits : s.Fits i) (hstep : (session mem mem').step s i = some t) : Inv t := by
  cases i with
  | send m =>
    obtain ⟨-, rfl⟩ := step_send hstep
    exact h.send m
  | serverRead chunk =>
    obtain ⟨hphase, hlegal, hchunk, rfl⟩ := step_serverRead hstep
    exact h.serverRead hphase hlegal hchunk
  | serverFail ret =>
    obtain ⟨hphase, rfl⟩ := step_serverFail hstep
    exact h.serverFail hphase ret
  | serverTurn data =>
    obtain ⟨hphase, rfl⟩ := step_serverTurn hstep
    exact h.serverTurn hphase data
  | task =>
    obtain ⟨m, tasks, htasks, r, rfl, hvalid, -, hwire⟩ := step_task h hstep
    exact h.task htasks (hfits.head htasks) hvalid hwire
  | clientRead chunk =>
    obtain ⟨hphase, hlegal, hchunk, rfl⟩ := step_clientRead hstep
    exact h.clientRead hphase hlegal hchunk
  | clientFail ret =>
    obtain ⟨hphase, rfl⟩ := step_clientFail hstep
    exact h.clientFail hphase ret
  | clientTurn =>
    obtain ⟨hphase, rfl⟩ := step_clientTurn hstep
    exact h.clientTurn hphase

theorem inv_of_reachWithin {mem mem' : Vector UInt8 msgBufSize}
    (h : (session mem mem').ReachWithin Fits s) : Inv s :=
  h.invariant (inv_init mem mem') fun _ _ _ hs hfits hstep => hs.step hfits hstep

/-! ## The end of a session -/

/-- Everything that can happen but a new request and the end of the connection. -/
def Act.Internal : Act → Prop
  | .send _ | .serverFail _ | .clientFail _ => False
  | _ => True

/-- How many steps are left when nothing more is sent.  A turn of the server's loop can add a
reply of 100 bytes, and a task to it. -/
def left (s : Session) : ℕ :=
  402 * rank s.up s.server.abs +
    (rank (s.down ++ (s.socket.content ++ Message.stream s.tasks)) s.client.abs + s.tasks.length)

theorem rank_append (xs ys : List UInt8) (r : FramedReceiver.State UInt8) :
    rank (xs ++ ys) r = rank xs r + 4 * ys.length := by
  rw [rank, rank, List.length_append]
  omega

theorem length_replies_le (ms : List Message) :
    (ms.flatMap Message.replies).length ≤ ms.length := by
  induction ms with
  | nil => exact le_refl 0
  | cons m ms ih =>
    have hm : m.replies.length ≤ 1 := by cases m <;> simp [Message.replies]
    rw [List.flatMap_cons, List.length_append, List.length_cons]
    omega

theorem length_stream_le (ms : List Message) : (Message.stream ms).length ≤ 100 * ms.length := by
  induction ms with
  | nil => exact le_refl 0
  | cons m ms ih =>
    have hm := m.size_le
    rw [Message.stream_cons, List.length_append, List.length_cons, m.length_toBytes]
    omega

/-- A read lowers the number of steps that the receiver has left. -/
theorem rank_enter {ms : List Message} {r : MsgBuf.RecvState} {chunk xs ys : List UInt8}
    (hvalid : r.buf.Valid) (hphase : r.phase = .idle)
    (hlegal : (Recv.bytes chunk).Legal r.buf.room) (hchunk : chunk <+: xs)
    (h : Carried messageFormat msgBufSize (ms.map Message.toBytes) (xs ++ ys) r.abs) :
    rank (xs.drop chunk.length ++ ys) (MsgBuf.enter r (.bytes chunk)).abs <
      rank (xs ++ ys) r.abs := by
  obtain ⟨rest, rfl⟩ := hchunk
  rw [List.append_assoc] at h ⊢
  rw [List.drop_left]
  have hproductive : (FramedReceiver.Act.arrive chunk).Productive :=
    List.length_pos_iff.mp hlegal.1
  exact FramedReceiver.rank_lt_of_step (by decide) hproductive h
    (hvalid.enter_bytes hphase hlegal).2

/-- **Every internal step leads on.** -/
theorem Inv.left_lt {mem mem' : Vector UInt8 msgBufSize} {i : Act} {t : Session} (h : Inv s)
    (hi : i.Internal) (hfits : s.Fits i) (hstep : (session mem mem').step s i = some t) :
    t.left < s.left := by
  cases i with
  | send m => exact absurd hi id
  | serverRead chunk =>
    obtain ⟨hphase, hlegal, hchunk, rfl⟩ := step_serverRead hstep
    have hrequests := h.requests
    rw [← List.append_nil s.up] at hrequests
    have hlt := rank_enter h.serverValid hphase hlegal hchunk hrequests
    rw [List.append_nil, List.append_nil] at hlt
    simp only [left]
    omega
  | serverFail ret => exact absurd hi id
  | serverTurn data =>
    obtain ⟨hphase, rfl⟩ := step_serverTurn hstep
    have hlt : rank s.up (MsgBuf.turn s.server).abs < rank s.up s.server.abs :=
      FramedReceiver.rank_lt_of_step (i := .turn) (by decide) trivial h.requests
        (h.serverValid.turn hphase).2
    obtain ⟨ks, ms, hturn, hms, hks, -⟩ := h.exists_serverTurn hphase data
    have hlength : ms.length ≤ 1 := by
      rw [hms, List.length_map]
      exact (length_replies_le ks).trans hks
    have hstream := length_stream_le ms
    rw [hturn]
    simp only [left, Message.stream_append, ← List.append_assoc, rank_append, List.length_append]
    omega
  | task =>
    obtain ⟨m, tasks, htasks, r, rfl, -, -, hwire⟩ := step_task h hstep
    have hstream := Inv.stream_runTask htasks (hfits.head htasks) hwire
    rw [htasks] at hstream
    simp only [left, htasks, hstream, List.length_cons]
    omega
  | clientRead chunk =>
    obtain ⟨hphase, hlegal, hchunk, rfl⟩ := step_clientRead hstep
    have hlt := rank_enter h.clientValid hphase hlegal hchunk h.replies
    simp only [left]
    omega
  | clientFail ret => exact absurd hi id
  | clientTurn =>
    obtain ⟨hphase, rfl⟩ := step_clientTurn hstep
    have hlt : rank (s.down ++ (s.socket.content ++ Message.stream s.tasks))
          (MsgBuf.turn s.client).abs <
        rank (s.down ++ (s.socket.content ++ Message.stream s.tasks)) s.client.abs :=
      FramedReceiver.rank_lt_of_step (i := .turn) (by decide) trivial h.replies
        (h.clientValid.turn hphase).2
    obtain ⟨ks, ms, hturn, -⟩ := h.exists_clientTurn hphase
    rw [hturn]
    simp only [left]
    omega

/-- Nobody has anything to do: nothing is under way, no task waits, and both loops are left. -/
structure Quiet (s : Session) : Prop where
  up : s.up = []
  server : s.server.phase = .idle
  tasks : s.tasks = []
  down : s.down = []
  client : s.client.phase = .idle

/-- A receiver that waits can read when something is under way. -/
theorem exists_read {ms : List Message} {r : MsgBuf.RecvState} {xs ys : List UInt8}
    (hvalid : r.buf.Valid) (hphase : r.phase = .idle)
    (h : Carried messageFormat msgBufSize (ms.map Message.toBytes) (xs ++ ys) r.abs)
    (hne : xs ≠ []) : ∃ chunk, (Recv.bytes chunk).Legal r.buf.room ∧ chunk <+: xs := by
  have hfit : ∀ bytes ∈ ms.map Message.toBytes, bytes.length ≤ msgBufSize := by
    intro bytes hbytes
    obtain ⟨m, -, rfl⟩ := List.mem_map.mp hbytes
    rw [m.length_toBytes]
    exact m.size_le.trans (by decide)
  have hlt : r.buf.content.length < msgBufSize :=
    h.pending_lt (by decide) (by decide) hfit hphase
  have hlen := hvalid.length_content
  have hroom : r.buf.room = msgBufSize - r.buf.lastPos := rfl
  obtain ⟨a, rest, rfl⟩ := List.exists_cons_of_ne_nil hne
  refine ⟨[a], ⟨Nat.one_pos, ?_⟩, ⟨rest, rfl⟩⟩
  rw [hroom, List.length_singleton]
  omega

/-- A receiver without anything to do waits. -/
theorem idle_of_stuck {ms : List Message} {r : MsgBuf.RecvState} {channel : List UInt8}
    (hopen : r.phase ≠ .left)
    (h : Carried messageFormat msgBufSize (ms.map Message.toBytes) channel r.abs)
    (hstuck : r.phase ≠ .extract) : r.phase = .idle := by
  cases hphase : r.phase with
  | idle => rfl
  | extract => exact absurd hphase hstuck
  | left => exact absurd hphase hopen
  | undefined => exact absurd hphase (h.phase_ne_undefined (by decide))

/-- Neither side has lost the connection. -/
def Open (s : Session) : Prop := s.server.phase ≠ .left ∧ s.client.phase ≠ .left

/-- **When nothing can happen, nobody has anything to do.** -/
theorem Inv.quiet {mem mem' : Vector UInt8 msgBufSize} (h : Inv s) (hopen : Open s)
    (hstuck : ∀ i, i.Internal → (session mem mem').step s i = none) : Quiet s := by
  have hserver : s.server.phase = .idle := by
    refine idle_of_stuck hopen.1 h.requests fun hphase => ?_
    have hturn := hstuck (.serverTurn (.replicate _ 0)) trivial
    simp only [session, hphase, if_true] at hturn
    exact Option.some_ne_none _ hturn
  have hclient : s.client.phase = .idle := by
    refine idle_of_stuck hopen.2 h.replies fun hphase => ?_
    have hturn := hstuck .clientTurn trivial
    simp only [session, hphase, if_true] at hturn
    exact Option.some_ne_none _ hturn
  refine ⟨?_, hserver, ?_, ?_, hclient⟩
  · by_contra hne
    have hrequests := h.requests
    rw [← List.append_nil s.up] at hrequests
    obtain ⟨chunk, hlegal, hchunk⟩ := exists_read h.serverValid hserver hrequests hne
    obtain ⟨t, ht, -⟩ := exists_serverRead mem mem' hserver hlegal hchunk
    exact absurd (ht.symm.trans (hstuck _ trivial)) (Option.some_ne_none t)
  · cases htasks : s.tasks with
    | nil => rfl
    | cons m tasks =>
      obtain ⟨r, hr, -⟩ := h.exists_runTask htasks
      exact absurd (hr.symm.trans (hstuck .task trivial)) (Option.some_ne_none _)
  · by_contra hne
    obtain ⟨chunk, hlegal, hchunk⟩ := exists_read h.clientValid hclient h.replies hne
    have hread := hstuck (.clientRead chunk) trivial
    simp only [session] at hread
    rw [if_pos ⟨hclient, hlegal, hchunk⟩] at hread
    exact Option.some_ne_none _ hread

theorem Inv.handled_eq_sent (h : Inv s) (hquiet : Quiet s) : s.handled = s.sent := by
  have hrequests := h.requests
  rw [hquiet.up] at hrequests
  have hphase : s.server.phase ≠ .extract :=
    fun hextract => Phase.noConfusion (hquiet.server.symm.trans hextract)
  exact handled_eq (List.prefix_refl _) (hrequests.delivered_eq (by decide) hphase)

/-! ## The answers -/

/-- What is expected of a session: neither program leaves its arrays; the handler is called with
the first messages that were sent; the client finds the first answers to these, in order, and
prints them; the other answers are in its buffer, under way, in the send buffer or waiting for
their task; every internal step leads on; and where there is none left, with the connection open,
everything that was sent has been handled, and what is missing of the answers is in the two
buffers.  The steps are those of `M`, whose states are seen as sessions. -/
structure Answered {τ : Type*} (M : Machine τ Act) (view : τ → Session) (s : τ) : Prop where
  defined : (view s).server.phase ≠ .undefined ∧ (view s).client.phase ≠ .undefined
  handled : (view s).server.delivered = (view s).handled.map Message.toBytes
  answered : (view s).outcomes <+: answersTo (view s).handled
  printed : (view s).printed = (view s).outcomes.flatMap shown
  rest : ∃ ls : List Message, (view s).queued.map Message.toBytes =
      (view s).client.delivered ++ ls.map Message.toBytes ∧
    (view s).client.buf.content ++
        ((view s).down ++ ((view s).socket.content ++ Message.stream (view s).tasks)) =
      Message.stream ls
  leads : ∀ i t, i.Internal → (view s).Fits i → M.step s i = some t → (view t).left < (view s).left
  ends : Open (view s) → (∀ i, i.Internal → M.step s i = none) →
    (view s).handled = (view s).sent ∧ ∃ ls : List Message,
      answersTo (view s).sent = (view s).outcomes ++ ls.map Message.outcome ∧
        (view s).client.buf.content ++ (view s).socket.content = Message.stream ls

/-- The answers that the client has found, and the others. -/
theorem Inv.exists_rest (h : Inv s) :
    ∃ ls : List Message, s.queued.map Message.toBytes =
        s.client.delivered ++ ls.map Message.toBytes ∧
      answersTo s.handled = s.outcomes ++ ls.map Message.outcome ∧
        s.client.buf.content ++ (s.down ++ (s.socket.content ++ Message.stream s.tasks)) =
          Message.stream ls := by
  obtain ⟨ks, ls, hqueued, hks, hrest⟩ := exists_messages h.replies
  have hdelivered : s.client.delivered = ks.map Message.toBytes := hks
  refine ⟨ls, ?_, ?_, hrest⟩
  · rw [hqueued, List.map_append, hdelivered]
  · rw [← h.queued, hqueued, List.map_append, outcomes_eq hdelivered]

theorem answered_of_reachWithin {mem mem' : Vector UInt8 msgBufSize}
    (h : (session mem mem').ReachWithin Fits s) : Answered (session mem mem') id s := by
  have hinv := inv_of_reachWithin h
  obtain ⟨ls, hqueued, hanswers, hrest⟩ := hinv.exists_rest
  refine ⟨⟨hinv.requests.phase_ne_undefined (by decide),
    hinv.replies.phase_ne_undefined (by decide)⟩, hinv.delivered_eq, ?_, hinv.printed,
    ⟨ls, hqueued, hrest⟩, fun i t hi hfits hstep => hinv.left_lt hi hfits hstep,
    fun hopen hstuck => ?_⟩
  · show s.outcomes <+: answersTo s.handled
    rw [hanswers]
    exact List.prefix_append _ _
  · have hquiet := hinv.quiet hopen hstuck
    have hsent := hinv.handled_eq_sent hquiet
    refine ⟨hsent, ls, hsent ▸ hanswers, ?_⟩
    rw [hquiet.down, hquiet.tasks] at hrest
    simpa [Message.stream] using hrest

/-! ## With a task server -/

section TaskServer

variable {T : TaskServer Message} {waiting : T.State → List Message}
  {mem mem' : Vector UInt8 msgBufSize}

/-- The list in a session can be a task server. -/
theorem Answered.of_view (hT : T.InOrder waiting) {s : TaskSession T}
    (h : Answered (session mem mem') id (s.view waiting)) :
    Answered (taskSession T mem mem') (TaskSession.view waiting) s where
  defined := h.defined
  handled := h.handled
  answered := h.answered
  printed := h.printed
  rest := h.rest
  leads i t hi hfits hstep := h.leads i (t.view waiting) hi hfits (TaskSession.step_view hT hstep)
  ends hopen hstuck :=
    h.ends hopen fun i hi => TaskSession.step_view_eq_none hT (hstuck i hi)

/-- A task must not run when its message would cross the end of `_szSendBuf`. -/
def TaskFits (waiting : T.State → List Message) (s : TaskSession T) (i : Act) : Prop :=
  (s.view waiting).Fits i

/-- **The client finds the answers to what it has sent.**  For every message there is, in any
order and any number, however the network cuts both streams and whenever the task thread runs,
as long as no reply crosses the end of the send buffer.  The task server is any that runs the
tasks in the order of `addTask`, each once. -/
theorem session_answers (T : TaskServer Message) (waiting : T.State → List Message)
    (hT : T.InOrder waiting) (mem mem' : Vector UInt8 msgBufSize) (s : TaskSession T)
    (h : (taskSession T mem mem').ReachWithin (TaskFits waiting) s) :
    Answered (taskSession T mem mem') (TaskSession.view waiting) s :=
  .of_view hT (answered_of_reachWithin (TaskSession.reachWithin_view hT h))

end TaskServer

/-- A heartbeat has been sent and read, with a list for the task server, and the results about
the session hold. -/
theorem session_answers_heart :
    ∃ s, (taskSession (.queue Message) (.replicate _ 0) (.replicate _ 0)).ReachWithin
        (TaskFits id) s ∧
      s.sent = [.heartC2S] ∧ s.up = [] ∧
        Answered (taskSession (.queue Message) (.replicate _ 0) (.replicate _ 0))
          (TaskSession.view id) s := by
  have hsent : (session (.replicate _ 0) (.replicate _ 0)).ReachWithin Fits
      { (session (.replicate _ 0) (.replicate _ 0)).init with
        sent := [.heartC2S]
        up := [4, 0, 6, 0] } :=
    .step (i := .send .heartC2S) .init trivial (step_send_eq _ _ _ Phase.noConfusion)
  obtain ⟨u, hu, hu', hup⟩ := exists_serverRead (.replicate _ 0) (.replicate _ 0)
    (s := { (session (.replicate _ 0) (.replicate _ 0)).init with
      sent := [.heartC2S]
      up := [4, 0, 6, 0] }) rfl (show (Recv.bytes [4, 0, 6, 0]).Legal _ by decide) (by decide)
  have hread : (session (.replicate _ 0) (.replicate _ 0)).ReachWithin Fits u :=
    .step hsent (show Fits _ (.serverRead [4, 0, 6, 0]) from trivial) hu
  obtain ⟨s, hs, hview⟩ := TaskSession.exists_reachWithin TaskServer.inOrder_queue hread
  have hsent' : s.sent = [.heartC2S] := (congrArg (fun v => v.sent) hview).trans hu'
  have hup' : s.up = [] := (congrArg (fun v => v.up) hview).trans hup
  exact ⟨s, hs, hsent', hup', session_answers _ _ TaskServer.inOrder_queue _ _ s hs⟩

end Session
end EasyTcpServer
