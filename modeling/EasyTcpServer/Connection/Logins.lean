import EasyTcpServer.Connection.Answers

/-!
# Requests to log in

The load test of `Client.cpp` sends `Login`s.  Each is answered with a `LoginResult` of 100
bytes, and `sendData` of `Server.h` sends nothing until its buffer of 51200 bytes is full, which
is after 512 of them.  So no reply crosses the end of the buffer, and the answers come in lots of
512: a client that waits for the answer to its request before it sends the next one waits for
ever.
-/

namespace EasyTcpServer
namespace Session

open FramedReceiver (Carried Phase)

/-- The client sends requests to log in, and nothing else. -/
def Logins (_ : Session) : Act → Prop
  | .send m => m.cmd = .login
  | _ => True

/-- What holds then. -/
structure LoginInv (s : Session) : Prop where
  inv : Inv s
  sent : ∀ m ∈ s.sent, m.cmd = .login
  queued : ∀ m ∈ s.queued, m.size = 100
  tasks : s.tasks <:+ s.queued
  whole : ClientSocket.sendBufSize ∣ s.client.received.length + s.down.length

variable {s : Session}

/-! ## Counting bytes -/

theorem length_stream {ms : List Message} (h : ∀ m ∈ ms, m.size = 100) :
    (Message.stream ms).length = 100 * ms.length := by
  induction ms with
  | nil => rfl
  | cons m ms ih =>
    obtain ⟨hm, hms⟩ := List.forall_mem_cons.mp h
    rw [Message.stream_cons, List.length_append, List.length_cons, m.length_toBytes, hm, ih hms]
    omega

/-- A request to log in has one answer, of 100 bytes. -/
theorem length_answersTo {ms : List Message} (h : ∀ m ∈ ms, m.cmd = .login) :
    (answersTo ms).length = ms.length := by
  induction ms with
  | nil => rfl
  | cons m ms ih =>
    obtain ⟨hm, hms⟩ := List.forall_mem_cons.mp h
    have hreplies : (answersTo [m]).length = 1 := by
      cases m with
      | login m => rfl
      | _ => exact Cmd.noConfusion hm
    rw [← List.singleton_append, answersTo_append, List.length_append, hreplies, ih hms,
      List.length_append, List.length_singleton]

theorem size_toMessage {m : Message} (hm : m.cmd = .login) {r : ResultMsg} (hr : r ∈ m.replies)
    (data : Vector UInt8 92) : (r.toMessage data).size = 100 := by
  cases m with
  | login m =>
    obtain rfl := List.mem_singleton.mp hr
    rfl
  | _ => exact Cmd.noConfusion hm

theorem LoginInv.length_queued (h : LoginInv s) : s.queued.length = s.handled.length := by
  have hlogins : ∀ m ∈ s.handled, m.cmd = .login :=
    fun m hm => h.sent m (List.mem_of_mem_take hm)
  rw [← length_answersTo hlogins, ← h.inv.queued, List.length_map]

/-- The buffers sent so far, the send buffer and the tasks hold 100 bytes for every answer. -/
theorem LoginInv.exists_lots (h : LoginInv s) :
    ∃ k : ℕ, s.client.received.length + s.down.length = 51200 * k ∧
      51200 * k + s.socket.lastSendPos + 100 * s.tasks.length = 100 * s.queued.length := by
  obtain ⟨k, hk⟩ := h.whole
  have hlots : s.client.received.length + s.down.length = 51200 * k := hk
  refine ⟨k, hlots, ?_⟩
  have hstream := congrArg List.length h.inv.replies.stream
  have htasks : ∀ m ∈ s.tasks, m.size = 100 := fun m hm => h.queued m (h.tasks.subset hm)
  have hqueued : (s.queued.map Message.toBytes).flatten.length = 100 * s.queued.length :=
    length_stream h.queued
  rw [hqueued, List.length_append, List.length_append, List.length_append,
    length_stream htasks] at hstream
  have hreceived : s.client.abs.received.length = s.client.received.length := rfl
  have hcontent := h.inv.socket.length_content
  omega

/-- The next reply ends inside the send buffer or at its end. -/
theorem LoginInv.fits (h : LoginInv s) (i : Act) : s.Fits i := by
  cases i with
  | task =>
    intro m hm
    have hsize : m.size = 100 := h.queued m (h.tasks.subset (List.mem_of_mem_head? hm))
    obtain ⟨k, -, hk⟩ := h.exists_lots
    have hlt := h.inv.socket.lastSendPos_lt
    have hsend : ClientSocket.sendBufSize = 51200 := rfl
    omega
  | _ => trivial

/-! ## What the steps keep -/

theorem received_turn (r : MsgBuf.RecvState) : (MsgBuf.turn r).received = r.received := by
  unfold MsgBuf.turn
  split
  · split
    · rfl
    · rfl
  · rfl

theorem LoginInv.serverTurn (h : LoginInv s) (hphase : s.server.phase = .extract)
    (data : Vector UInt8 92) : LoginInv (s.serverTurn data) := by
  have hinv := h.inv.serverTurn hphase data
  obtain ⟨ks, ms, hturn, hms, -, hfirst, -⟩ := h.inv.exists_serverTurn hphase data
  rw [hturn] at hinv ⊢
  refine ⟨hinv, h.sent, fun m hm => ?_, ?_, h.whole⟩
  · rcases List.mem_append.mp hm with hm | hm
    · exact h.queued m hm
    · rw [hms] at hm
      obtain ⟨r, hr, rfl⟩ := List.mem_map.mp hm
      obtain ⟨k, hk, hr⟩ := List.mem_flatMap.mp hr
      exact size_toMessage (h.sent k (hfirst.subset (List.mem_append_right _ hk))) hr data
  · obtain ⟨ds, hds⟩ := h.tasks
    exact ⟨ds, by rw [← hds, List.append_assoc]⟩

/-- A step of a session in which only requests to log in are sent. -/
theorem LoginInv.step {mem mem' : Vector UInt8 msgBufSize} {i : Act} {t : Session}
    (h : LoginInv s) (hok : Logins s i) (hstep : (session mem mem').step s i = some t) :
    LoginInv t := by
  have hinv := h.inv.step (h.fits i) hstep
  cases i with
  | send m =>
    obtain ⟨-, rfl⟩ := step_send hstep
    refine ⟨hinv, fun k hk => ?_, h.queued, h.tasks, h.whole⟩
    rcases List.mem_append.mp hk with hk | hk
    · exact h.sent k hk
    · obtain rfl := List.mem_singleton.mp hk
      exact hok
  | serverRead chunk =>
    obtain ⟨-, -, -, rfl⟩ := step_serverRead hstep
    exact ⟨hinv, h.sent, h.queued, h.tasks, h.whole⟩
  | serverFail ret =>
    obtain ⟨-, rfl⟩ := step_serverFail hstep
    exact ⟨hinv, h.sent, h.queued, h.tasks, h.whole⟩
  | serverTurn data =>
    obtain ⟨hphase, rfl⟩ := step_serverTurn hstep
    exact h.serverTurn hphase data
  | task =>
    obtain ⟨m, tasks, htasks, r, rfl, -, hdvd, -⟩ := step_task h.inv hstep
    refine ⟨hinv, h.sent, h.queued, ?_, ?_⟩
    · exact (List.suffix_cons m tasks).trans (htasks ▸ h.tasks)
    · show ClientSocket.sendBufSize ∣ s.client.received.length + (s.down ++ r.wire).length
      rw [List.length_append, ← Nat.add_assoc]
      exact Nat.dvd_add h.whole hdvd
  | clientRead chunk =>
    obtain ⟨hphase, hlegal, hchunk, rfl⟩ := step_clientRead hstep
    obtain ⟨hreceived, -⟩ := enter_fields h.inv.clientValid hphase hlegal
    refine ⟨hinv, h.sent, h.queued, h.tasks, ?_⟩
    show ClientSocket.sendBufSize ∣
      (MsgBuf.enter s.client (.bytes chunk)).received.length + (s.down.drop chunk.length).length
    have hle := hchunk.length_le
    have hlength : (s.client.received ++ chunk).length + (s.down.drop chunk.length).length =
        s.client.received.length + s.down.length := by
      rw [List.length_append, List.length_drop]
      omega
    rw [hreceived, hlength]
    exact h.whole
  | clientFail ret =>
    obtain ⟨-, rfl⟩ := step_clientFail hstep
    refine ⟨hinv, h.sent, h.queued, h.tasks, ?_⟩
    rw [enter_fail]
    exact h.whole
  | clientTurn =>
    obtain ⟨hphase, rfl⟩ := step_clientTurn hstep
    obtain ⟨ks, ms, hturn, -⟩ := h.inv.exists_clientTurn hphase
    rw [hturn] at hinv ⊢
    refine ⟨hinv, h.sent, h.queued, h.tasks, ?_⟩
    show ClientSocket.sendBufSize ∣ (MsgBuf.turn s.client).received.length + s.down.length
    rw [received_turn]
    exact h.whole

theorem loginInv_init (mem mem' : Vector UInt8 msgBufSize) :
    LoginInv (session mem mem').init :=
  ⟨inv_init mem mem', fun _ hm => absurd hm List.not_mem_nil,
    fun _ hm => absurd hm List.not_mem_nil, List.suffix_refl _, Nat.dvd_zero _⟩

theorem loginInv_of_reachWithin {mem mem' : Vector UInt8 msgBufSize}
    (h : (session mem mem').ReachWithin Logins s) : LoginInv s :=
  h.invariant (loginInv_init mem mem') fun _ _ _ hs hok hstep => hs.step hok hstep

/-- So all the results about sessions hold. -/
theorem reachWithin_fits {mem mem' : Vector UInt8 msgBufSize}
    (h : (session mem mem').ReachWithin Logins s) : (session mem mem').ReachWithin Fits s := by
  induction h with
  | init => exact .init
  | step hs _ hstep ih => exact ih.step ((loginInv_of_reachWithin hs).fits _) hstep

/-! ## Lots of answers -/

/-- How many answers the client has found, and the bytes it has in its buffer. -/
theorem LoginInv.length_received (h : LoginInv s) :
    s.client.received.length = 100 * s.outcomes.length + s.client.buf.content.length := by
  obtain ⟨ks, ls, hqueued, hks, hrest⟩ := exists_messages h.inv.replies
  have hdelivered : s.client.delivered = ks.map Message.toBytes := hks
  have hsize : ∀ m ∈ ks, m.size = 100 :=
    fun m hm => h.queued m (hqueued ▸ List.mem_append_left _ hm)
  have hcount : s.outcomes.length = ks.length := by
    rw [outcomes_eq hdelivered, List.length_map]
  have hstream := h.inv.replies.stream
  have hall : (s.queued.map Message.toBytes).flatten = Message.stream ks ++ Message.stream ls := by
    rw [← Message.stream_append, ← hqueued, Message.stream]
  rw [hall, ← hrest] at hstream
  have hlength := congrArg List.length hstream
  simp only [List.length_append, length_stream hsize] at hlength
  have hreceived : s.client.abs.received.length = s.client.received.length := rfl
  have hcontent : s.client.abs.pending.length = s.client.buf.content.length := rfl
  omega

/-- A client that waits, with nothing under way, has nothing in its buffer. -/
theorem LoginInv.content_eq_nil (h : LoginInv s) (hquiet : Quiet s) :
    s.client.buf.content = [] := by
  by_contra hne
  have hphase : s.client.phase ≠ .extract :=
    fun hextract => Phase.noConfusion (hquiet.client.symm.trans hextract)
  have hincomplete : ¬ messageFormat.Complete s.client.buf.content :=
    h.inv.replies.not_complete (by decide) hphase
  obtain ⟨ks, ls, hqueued, -, hrest⟩ := exists_messages h.inv.replies
  have hpending : s.client.buf.content ++ _ = Message.stream ls := hrest
  -- what is in the buffer is at least one message long
  have hlength := h.length_received
  obtain ⟨k, hk, -⟩ := h.exists_lots
  rw [hquiet.down, List.length_nil, Nat.add_zero] at hk
  have hpos := List.length_pos_iff.mpr hne
  have hle : 100 ≤ s.client.buf.content.length := by omega
  cases ls with
  | nil =>
    have hnil : s.client.buf.content = [] := (List.append_eq_nil_iff.mp hpending).1
    exact hne hnil
  | cons m ls =>
    have hm : m.size = 100 :=
      h.queued m (hqueued ▸ List.mem_append_right _ List.mem_cons_self)
    have hfront : m.toBytes <+: s.client.buf.content := by
      refine List.prefix_of_prefix_length_le ⟨Message.stream ls, hpending.symm⟩
        (List.prefix_append _ _) ?_
      rw [m.length_toBytes, hm]
      exact hle
    obtain ⟨rest, hrest⟩ := hfront
    exact hincomplete (hrest ▸ m.frame.complete.append_right rest)

/-- What is expected of a session of requests to log in: the client has found at most the answers
to the lots of 512 that are complete, and where nothing can happen any more it has found
these. -/
structure InLots {τ : Type*} (M : Machine τ Act) (view : τ → Session) (s : τ) : Prop where
  answered : Answered M view s
  found : (view s).outcomes.length ≤ 512 * ((view s).sent.length / 512)
  ends : Open (view s) → (∀ i, i.Internal → M.step s i = none) →
    (view s).outcomes.length = 512 * ((view s).sent.length / 512)

theorem LoginInv.outcomes_le (h : LoginInv s) :
    s.outcomes.length ≤ 512 * (s.sent.length / 512) := by
  obtain ⟨k, hk, htotal⟩ := h.exists_lots
  have hreceived := h.length_received
  have hqueued := h.length_queued
  have hhandled : s.handled.length ≤ s.sent.length := List.length_take_le' _ _
  have hpos := h.inv.socket.lastSendPos_nonneg
  have hlots : k ≤ s.sent.length / 512 := by omega
  omega

theorem LoginInv.outcomes_eq (h : LoginInv s) (hquiet : Quiet s) :
    s.outcomes.length = 512 * (s.sent.length / 512) := by
  obtain ⟨k, hk, htotal⟩ := h.exists_lots
  rw [hquiet.down, List.length_nil, Nat.add_zero] at hk
  rw [hquiet.tasks, List.length_nil] at htotal
  have hreceived := h.length_received
  rw [h.content_eq_nil hquiet, List.length_nil] at hreceived
  have hqueued := h.length_queued
  rw [h.inv.handled_eq_sent hquiet] at hqueued
  have hpos := h.inv.socket.lastSendPos_nonneg
  have hlt := h.inv.socket.lastSendPos_lt
  have hsend : ClientSocket.sendBufSize = 51200 := rfl
  omega

/-- **The answers to requests to log in come in lots of 512.**  In every session in which nothing
else is sent, whatever the order in which the parties take turns and whatever the task server,
as long as it runs the tasks in the order of `addTask`, each once. -/
theorem session_logins (T : TaskServer Message) (waiting : T.State → List Message)
    (hT : T.InOrder waiting) (mem mem' : Vector UInt8 msgBufSize) (s : TaskSession T)
    (h : (taskSession T mem mem').ReachWithin (fun s i => Logins (s.view waiting) i) s) :
    InLots (taskSession T mem mem') (TaskSession.view waiting) s := by
  have hview : (session mem mem').ReachWithin Logins (s.view waiting) :=
    TaskSession.reachWithin_view hT h
  have hlogins := loginInv_of_reachWithin hview
  have hanswered := answered_of_reachWithin (reachWithin_fits hview)
  refine ⟨.of_view hT hanswered, hlogins.outcomes_le, fun hopen hstuck => ?_⟩
  have hsession : ∀ i, i.Internal → (session mem mem').step (s.view waiting) i = none :=
    fun i hi => TaskSession.step_view_eq_none hT (hstuck i hi)
  exact hlogins.outcomes_eq (hlogins.inv.quiet hopen hsession)

/-- One request to log in has been sent, and there is no answer to it. -/
theorem session_logins_one :
    ∃ s, (taskSession (.queue Message) (.replicate _ 0) (.replicate _ 0)).ReachWithin
        (fun s i => Logins (s.view id) i) s ∧
      s.sent.length = 1 ∧ (s.view id).outcomes = [] := by
  have hsent : (session (.replicate _ 0) (.replicate _ 0)).ReachWithin Logins
      { (session (.replicate _ 0) (.replicate _ 0)).init with
        sent := [.login ⟨.replicate _ 0, .replicate _ 0, .replicate _ 0⟩]
        up := (Message.login ⟨.replicate _ 0, .replicate _ 0, .replicate _ 0⟩).toBytes } :=
    .step (i := .send (.login ⟨.replicate _ 0, .replicate _ 0, .replicate _ 0⟩)) .init rfl
      (step_send_eq _ _ _ Phase.noConfusion)
  obtain ⟨s, hs, hview⟩ := TaskSession.exists_reachWithin TaskServer.inOrder_queue hsent
  have hone : (s.view id).sent.length = 1 := congrArg (fun v => v.sent.length) hview
  have hfound := (session_logins _ _ TaskServer.inOrder_queue _ _ s hs).found
  rw [hone, Nat.div_eq_of_lt (by decide), Nat.mul_zero] at hfound
  exact ⟨s, hs, hone, List.eq_nil_of_length_eq_zero (Nat.le_zero.mp hfound)⟩

end Session
end EasyTcpServer
