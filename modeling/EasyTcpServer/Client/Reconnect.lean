import EasyTcpServer.Buffer.MsgBufFraming
import EasyTcpServer.Client.Client
import EasyTcpServer.Lib.WholeFrames

/-!
# One client, many connections

`Close_sock`, `Init_sock` and `Connect` do not touch `_lastPos`.  Whatever a connection has
left in `_szMsgBuf`, the beginning of a message that was cut off when the connection ended,
stands in front of the first bytes of the next.

`connection_framed` says what follows.  As long as every connection is made with `_lastPos` at
zero, each of them is framed as if it were the only one.  A connection made with `_lastPos`
anywhere else is not: already a single message of four bytes is not handed on as it was sent.
-/

namespace EasyTcpServer
namespace Client

open FramedReceiver (Phase Consistent)

/-! ## What is expected -/

/-- The bytes of the present connection, with those a step brings, are the beginning of a
stream of messages. -/
def StreamOk (c : Client) (i : Act) : Prop :=
  messageFormat.WellFormed (c.recv.received ++ i.chunk)

/-- A connection is made with an empty message buffer. -/
def ConnectsEmpty (c : Client) (i : Act) : Prop := i.connects = true → c.recv.buf.lastPos = 0

/-- What is expected of a client: no copy leaves the array; a call of `RecvData` ends; the
messages handed on are those the reference parser finds in the bytes of the present connection,
all of them when no call is under way. -/
structure Framed (c : Client) : Prop where
  defined : c.recv.phase ≠ .undefined
  ends : c.recv.phase = .extract →
    ∃ k d, client.iterate .turn k c = some d ∧ d.recv.phase = .idle
  handed : c.recv.delivered <+: (messageFormat.parse c.recv.received).1
  parse : c.recv.phase ≠ .extract → c.recv.delivered = (messageFormat.parse c.recv.received).1

/-! ## Invariants -/

/-- What holds throughout, whatever came in. -/
structure Kept (c : Client) : Prop where
  valid : c.recv.buf.Valid
  idle : c.recv.phase = .idle → ¬ messageFormat.Complete c.recv.buf.content

/-- What holds as long as every connection was made with an empty message buffer. -/
structure Inv (c : Client) : Prop where
  valid : c.recv.buf.Valid
  consistent : Consistent messageFormat msgBufSize c.recv.abs
  stream : messageFormat.WellFormed c.recv.received

variable {c d : Client} {i : Act}

theorem not_complete_nil : ¬ messageFormat.Complete [] := by decide

theorem kept_new : Kept new := by
  refine ⟨MsgBuf.valid_new _, fun _ => ?_⟩
  rw [new, MsgBuf.content_new]
  exact not_complete_nil

theorem Kept.next (h : Kept c) (hstep : client.step c i = some d) : Kept d := by
  cases step_cases h.valid hstep with
  | none _ _ _ hrecv =>
    refine ⟨?_, ?_⟩
    · rw [hrecv]
      exact h.valid
    · rw [hrecv]
      exact h.idle
  | connected _ _ hidle hrecv =>
    refine ⟨?_, ?_⟩
    · rw [hrecv]
      exact h.valid
    · rw [hrecv]
      exact fun _ => h.idle hidle
  | read chunk _ _ hidle hlegal hrecv =>
    obtain ⟨hvalid, harrive⟩ := h.valid.enter_bytes hidle hlegal
    obtain ⟨-, -, habs⟩ := FramedReceiver.step_arrive_cases harrive
    rw [← hrecv] at hvalid habs
    refine ⟨hvalid, fun hphase => ?_⟩
    have hextract : d.recv.phase = .extract := congrArg (·.phase) habs
    rw [hextract] at hphase
    cases hphase
  | turned _ hphase hrecv =>
    obtain ⟨hvalid, hturn⟩ := h.valid.turn hphase
    rw [← hrecv] at hvalid hturn
    refine ⟨hvalid, fun hidle => ?_⟩
    obtain ⟨-, ⟨-, -, habs⟩ | ⟨-, -, habs⟩ | ⟨hincomplete, habs⟩⟩ :=
      FramedReceiver.step_turn_cases hturn
    · have hextract : d.recv.phase = c.recv.phase := congrArg (·.phase) habs
      rw [hextract, hphase] at hidle
      cases hidle
    · have hundefined : d.recv.phase = .undefined := congrArg (·.phase) habs
      rw [hundefined] at hidle
      cases hidle
    · have hcontent : d.recv.buf.content = c.recv.buf.content := congrArg (·.pending) habs
      rw [hcontent]
      exact hincomplete

theorem kept_of_reachWithin {ok : Client → Act → Prop} (h : client.ReachWithin ok c) : Kept c :=
  h.invariant kept_new fun _ _ _ hc _ hstep => hc.next hstep

/-- Nothing received, nothing handed on, nothing left. -/
theorem inv_of_lastPos (hvalid : c.recv.buf.Valid) (hlast : c.recv.buf.lastPos = 0)
    (hphase : c.recv.phase = .idle) (hreceived : c.recv.received = [])
    (hdelivered : c.recv.delivered = []) : Inv c := by
  have hcontent : c.recv.buf.content = [] := by
    have hlen := hvalid.length_content
    rw [hlast] at hlen
    exact List.length_eq_zero_iff.mp (Int.ofNat_eq_zero.mp hlen)
  have habs : c.recv.abs = (framedReceiver messageFormat msgBufSize).init := by
    rw [MsgBuf.RecvState.abs, hphase, hreceived, hdelivered, hcontent]
    rfl
  refine ⟨hvalid, ?_, ?_⟩
  · rw [habs]
    exact FramedReceiver.consistent_init (by decide)
  · rw [hreceived]
    exact Format.wellFormed_nil

theorem inv_new : Inv new := inv_of_lastPos (MsgBuf.valid_new _) rfl rfl rfl rfl

/-- A step that does not make a connection, or makes it with an empty message buffer. -/
theorem Inv.next (h : Inv c) (hstream : StreamOk c i) (hempty : ConnectsEmpty c i)
    (hstep : client.step c i = some d) : Inv d := by
  cases step_cases h.valid hstep with
  | none _ _ _ hrecv =>
    refine ⟨?_, ?_, ?_⟩
    · rw [hrecv]
      exact h.valid
    · rw [hrecv]
      exact h.consistent
    · rw [hrecv]
      exact h.stream
  | connected _ hconnects hidle hrecv =>
    refine inv_of_lastPos ?_ ?_ ?_ ?_ ?_
    · rw [hrecv]
      exact h.valid
    · rw [hrecv]
      exact hempty hconnects
    · rw [hrecv]
      exact hidle
    · rw [hrecv]
    · rw [hrecv]
  | read chunk hchunk _ hidle hlegal hrecv =>
    obtain ⟨hvalid, harrive⟩ := h.valid.enter_bytes hidle hlegal
    rw [← hrecv] at hvalid harrive
    obtain ⟨-, -, habs⟩ := FramedReceiver.step_arrive_cases harrive
    have hreceived : d.recv.received = c.recv.received ++ chunk := congrArg (·.received) habs
    refine ⟨hvalid, h.consistent.step harrive, ?_⟩
    rw [hreceived, ← hchunk]
    exact hstream
  | turned _ hphase hrecv =>
    obtain ⟨hvalid, hturn⟩ := h.valid.turn hphase
    rw [← hrecv] at hvalid hturn
    have hreceived : d.recv.received = c.recv.received := by
      obtain ⟨-, ⟨-, -, habs⟩ | ⟨-, -, habs⟩ | ⟨-, habs⟩⟩ := FramedReceiver.step_turn_cases hturn
      · exact congrArg (·.received) habs
      · exact congrArg (·.received) habs
      · exact congrArg (·.received) habs
    refine ⟨hvalid, h.consistent.step hturn, ?_⟩
    rw [hreceived]
    exact h.stream

/-! ## The loop -/

/-- Turns of the client are turns of the framed receiver. -/
theorem iterate_turn_abs (k : ℕ) (hvalid : c.recv.buf.Valid) :
    (client.iterate .turn k c).map (fun c => c.recv.abs) =
      (framedReceiver messageFormat msgBufSize).iterate .turn k c.recv.abs := by
  refine Machine.iterate_map (G := fun c => c.recv.buf.Valid) (fun c hc => ?_) k hvalid
  by_cases hphase : c.recv.phase = .extract
  · have hstep : client.step c .turn = some c.turn := if_pos hphase
    obtain ⟨hturned, hturn⟩ := hc.turn hphase
    rw [hstep]
    refine ⟨hturn.symm, fun d hd => ?_⟩
    obtain rfl := Option.some.inj hd
    exact hturned
  · have hstep : client.step c .turn = none := if_neg hphase
    have habs : (framedReceiver messageFormat msgBufSize).step c.recv.abs .turn = none :=
      if_neg hphase
    rw [hstep, habs]
    exact ⟨rfl, fun d hd => by cases hd⟩

theorem Inv.headersPositive (h : Inv c) :
    messageFormat.HeadersSatisfy (0 < ·) c.recv.received :=
  h.stream.headersPositive (by decide)

theorem Inv.ends (h : Inv c) (hphase : c.recv.phase = .extract) :
    ∃ k d, client.iterate .turn k c = some d ∧ d.recv.phase = .idle := by
  have hrest := h.headersPositive.of_cuts h.consistent.cuts
  obtain ⟨k, t, -, ht, htphase, hend⟩ :=
    FramedReceiver.exists_iterate_exit (N := msgBufSize) hrest hphase rfl
  have hexit := Machine.iterate_succ_eq_some.mpr
    ⟨t, ht, FramedReceiver.step_turn_exit htphase hend⟩
  rw [← iterate_turn_abs (k + 1) h.valid] at hexit
  obtain ⟨d, hd, habs⟩ := Option.map_eq_some_iff.mp hexit
  exact ⟨k + 1, d, hd, congrArg (·.phase) habs⟩

theorem Inv.framed (h : Inv c) : Framed c := by
  have hpos := h.headersPositive
  have hdefined := h.consistent.phase_ne_undefined (hpos.mono fun _ hn => le_of_lt hn)
  have hcuts : messageFormat.Cuts c.recv.received c.recv.delivered c.recv.buf.content :=
    h.consistent.cuts
  refine ⟨hdefined, h.ends, ?_, fun hphase => ?_⟩
  · rw [hcuts.parse_append hpos]
    exact List.prefix_append _ _
  · exact (congrArg Prod.fst (h.consistent.deliveries_eq_parse hpos hphase)).symm

/-! ## A connection that starts behind a rest -/

/-- The first four bytes are not the message if up to three bytes stand in front of it. -/
theorem take_append_four_ne {rest : List UInt8} (hne : rest ≠ []) (hlen : rest.length < 4) :
    [4, 0, 0, 0] ≠ (rest ++ [4, 0, 0, 0]).take 4 := by
  intro htake
  match rest with
  | [] => exact hne rfl
  | [a] => simp at htake
  | [a, b] => simp at htake
  | [a, b, e] => simp at htake
  | _ :: _ :: _ :: _ :: rest =>
    simp only [List.length_cons] at hlen
    omega

/-- Behind the beginning of a message, a message of four bytes is not found. -/
theorem not_cuts_behind_rest {rest ys : List UInt8} (hne : rest ≠ [])
    (hincomplete : ¬ messageFormat.Complete rest) :
    ¬ messageFormat.Cuts (rest ++ [4, 0, 0, 0]) [[4, 0, 0, 0]] ys := by
  intro hcuts
  generalize hm : [[4, 0, 0, (0 : UInt8)]] = ms at hcuts
  cases hcuts with
  | nil => cases hm
  | cons hcomplete _ _ =>
    have htake := (List.cons.inj hm).1
    have hsize : messageFormat.size (rest ++ [4, 0, 0, 0]) = 4 := by
      have hlen := congrArg List.length htake
      rw [List.length_take, Nat.min_eq_left hcomplete.size_le] at hlen
      exact hlen.symm
    rw [hsize] at htake
    by_cases hlen : 4 ≤ rest.length
    · -- then the message of four bytes was there before
      rw [List.take_append_of_le_length hlen] at htake
      have hheader : sizeofDataHeader ≤ (rest.take 4).length := by
        rw [List.length_take, Nat.min_eq_left hlen]
        decide
      have hdeclared : dataLength rest = 4 := by
        rw [← dataLength_take hheader, ← htake]
        decide
      have hdeclared' : messageFormat.declared rest ≤ rest.length := by
        rw [messageFormat_declared, hdeclared]
        omega
      exact hincomplete (And.intro hlen hdeclared')
    · exact take_append_four_ne hne (not_le.mp hlen) htake

/-- A connection that has been made. -/
theorem step_connected (hconnects : i.connects = true) (hstep : client.step c i = some d) :
    c.recv.phase = .idle ∧ d.isConnect = true ∧
      d.recv = { c.recv with received := [], delivered := [] } := by
  cases i with
  | connect startup sock success =>
    obtain rfl : success = true := hconnects
    obtain ⟨⟨hidle, -⟩, rfl⟩ := Machine.guarded_eq_some.mp hstep
    exact ⟨hidle, by simp [connect], by simp [connect]⟩
  | initSock => cases hconnects
  | closeSock => cases hconnects
  | recvData => cases hconnects
  | onRun => cases hconnects
  | turn => cases hconnects

/-- The steps of one connection. -/
def SameConnection (c : Client) (i : Act) : Prop := StreamOk c i ∧ i.connects = false

/-- What turns of the loop do to the record. -/
theorem exists_delivered_of_iterate {k : ℕ} (hvalid : c.recv.buf.Valid)
    (h : client.iterate .turn k c = some d) :
    ∃ ms, messageFormat.Cuts c.recv.buf.content ms d.recv.buf.content ∧
      d.recv.delivered = c.recv.delivered ++ ms ∧ d.recv.received = c.recv.received := by
  have hturns := iterate_turn_abs k hvalid
  rw [h, Option.map_some] at hturns
  exact FramedReceiver.exists_delivered_of_iterate hturns.symm

/-- Turns of the loop belong to the connection. -/
theorem reachWithin_iterate_turn {s : Client} {k : ℕ} (hvalid : c.recv.buf.Valid)
    (hstream : messageFormat.WellFormed c.recv.received)
    (hc : (client.startAt s).ReachWithin SameConnection c)
    (h : client.iterate .turn k c = some d) :
    (client.startAt s).ReachWithin SameConnection d := by
  induction k generalizing d with
  | zero =>
    obtain rfl : c = d := Option.some.inj h
    exact hc
  | succ k ih =>
    obtain ⟨u, hu, hstep⟩ := Machine.iterate_succ_eq_some.mp h
    obtain ⟨-, -, -, hreceived⟩ := exists_delivered_of_iterate hvalid hu
    refine .step (i := .turn) (ih hu) ⟨?_, rfl⟩ hstep
    show messageFormat.WellFormed (u.recv.received ++ [])
    rw [List.append_nil, hreceived]
    exact hstream

/-- A new connection brings a chunk. -/
theorem exists_reachWithin_chunk (hkept : Kept c) (hconnects : i.connects = true)
    (hstep : client.step c i = some d) (chunk : List UInt8) (hne : 1 ≤ chunk.length)
    (hle : chunk.length ≤ 18434) (hwell : messageFormat.WellFormed chunk) :
    ∃ e, (client.startAt d).ReachWithin SameConnection e ∧ e.recv.buf.Valid ∧
      e.recv.abs = ⟨.extract, chunk, [], c.recv.buf.content ++ chunk⟩ := by
  obtain ⟨hidle, hconnect, hrecv⟩ := step_connected hconnects hstep
  have hvalid : d.recv.buf.Valid := by
    rw [hrecv]
    exact hkept.valid
  have hdidle : d.recv.phase = .idle := by
    rw [hrecv]
    exact hidle
  have hempty : d.recv.received = [] := by rw [hrecv]
  -- there is room for the chunk
  have hlegal : d.RecvLegal (.bytes chunk) := by
    have hlast := hkept.valid.lastPos_le_of_not_complete (hkept.idle hidle)
    have hroom : d.recv.buf.room = 51200 - c.recv.buf.lastPos := by
      rw [hrecv]
      rfl
    refine ⟨⟨hne, ?_⟩, Or.inl hconnect⟩
    rw [hroom]
    omega
  have hread : client.step d (.recvData (.bytes chunk)) = some (d.callRecvData (.bytes chunk)) :=
    if_pos ⟨hdidle, hlegal⟩
  have hcall : d.callRecvData (.bytes chunk) = d.recvData (.bytes chunk) :=
    if_neg (phase_recvData_bytes hvalid hdidle hlegal.1)
  rw [hcall] at hread
  obtain ⟨hvalid', harrive⟩ := hvalid.enter_bytes hdidle hlegal.1
  obtain ⟨-, -, habs⟩ := FramedReceiver.step_arrive_cases harrive
  refine ⟨d.recvData (.bytes chunk), ?_, hvalid', ?_⟩
  · refine .step (i := .recvData (.bytes chunk)) .init ⟨?_, rfl⟩ hread
    show messageFormat.WellFormed (d.recv.received ++ chunk)
    rw [hempty]
    exact hwell
  · rw [recvData, habs, hrecv]
    rfl

/-- The message of four bytes. -/
theorem frame_four : ∀ m ∈ [[4, 0, 0, (0 : UInt8)]], messageFormat.Frame m := by
  intro m hm
  rw [List.mem_singleton.mp hm]
  exact ⟨by decide, by decide⟩

theorem wellFormed_four : messageFormat.WellFormed [4, 0, 0, 0] :=
  ⟨[[4, 0, 0, 0]], frame_four, List.prefix_refl _⟩

/-- **A connection made with a rest in the message buffer is not framed.** -/
theorem not_framed_of_rest (hkept : Kept c) (hconnects : i.connects = true)
    (hstep : client.step c i = some d) (hrest : c.recv.buf.lastPos ≠ 0) :
    ¬ ∀ e, (client.startAt d).ReachWithin SameConnection e → Framed e := by
  intro hall
  have hincomplete := hkept.idle (step_connected hconnects hstep).1
  have hne : c.recv.buf.content ≠ [] := by
    intro hnil
    have hlen := hkept.valid.length_content
    rw [hnil] at hlen
    exact hrest hlen.symm
  obtain ⟨e, he, hvalid, habs⟩ := exists_reachWithin_chunk hkept hconnects hstep [4, 0, 0, 0]
    (by decide) (by decide) wellFormed_four
  have hreceived : e.recv.received = [4, 0, 0, 0] := congrArg (·.received) habs
  have hdelivered : e.recv.delivered = [] := congrArg (·.delivered) habs
  have hcontent : e.recv.buf.content = c.recv.buf.content ++ [4, 0, 0, 0] :=
    congrArg (·.pending) habs
  have hwell : messageFormat.WellFormed e.recv.received := by
    rw [hreceived]
    exact wellFormed_four
  -- the call ends, and what it has handed on is cut off the rest and the message
  obtain ⟨k, g, hg, hgidle⟩ := (hall e he).ends (congrArg (·.phase) habs)
  obtain ⟨ms, hcuts, hms, hgreceived⟩ := exists_delivered_of_iterate hvalid hg
  have hparse := (hall g (reachWithin_iterate_turn hvalid hwell he hg)).parse
    (by rw [hgidle]; decide)
  have hone : messageFormat.parse [4, 0, 0, 0] = ([[4, 0, 0, 0]], []) :=
    Format.parse_flatten (by decide) frame_four
  rw [hms, hdelivered, List.nil_append, hgreceived, hreceived, hone] at hparse
  rw [hparse, hcontent] at hcuts
  exact not_cuts_behind_rest hne hincomplete hcuts

/-! ## Which connections are framed -/

/-- **The connections of one client.**  In every run in which each connection is made with
`_lastPos` at zero, the messages handed on are those of the present connection.  And whatever
the run before: a connection is framed, however it goes on, exactly when `_lastPos` was zero
when it was made. -/
theorem connection_framed (c : Client) :
    (client.ReachWithin (fun c i => StreamOk c i ∧ ConnectsEmpty c i) c → Framed c) ∧
      ∀ i d, client.ReachWithin StreamOk c → i.connects = true → client.step c i = some d →
        ((∀ e, (client.startAt d).ReachWithin SameConnection e → Framed e) ↔
          c.recv.buf.lastPos = 0) := by
  refine ⟨fun hc => ?_, fun i d hc hconnects hstep => ⟨fun hall => ?_, fun hlast e he => ?_⟩⟩
  · have hinv : Inv c :=
      hc.invariant inv_new fun _ _ _ hs hok hst => hs.next hok.1 hok.2 hst
    exact hinv.framed
  · by_contra hrest
    exact not_framed_of_rest (kept_of_reachWithin hc) hconnects hstep hrest hall
  · have hkept := kept_of_reachWithin hc
    obtain ⟨hidle, -, hrecv⟩ := step_connected hconnects hstep
    have hinit : Inv d := by
      refine inv_of_lastPos ?_ ?_ ?_ ?_ ?_
      · rw [hrecv]
        exact hkept.valid
      · rw [hrecv]
        exact hlast
      · rw [hrecv]
        exact hidle
      · rw [hrecv]
      · rw [hrecv]
    have hinv : Inv e := by
      refine he.invariant hinit fun c i _ hs hok hst => hs.next hok.1 (fun hconnects => ?_) hst
      rw [hok.2] at hconnects
      cases hconnects
    exact hinv.framed

/-! ## Two connections -/

/-- A step that brings no bytes keeps to the stream. -/
theorem streamOk_of_chunk_nil (hchunk : i.chunk = [])
    (h : messageFormat.WellFormed c.recv.received) : StreamOk c i := by
  unfold StreamOk
  rwa [hchunk, List.append_nil]

/-- A client without a socket connects. -/
theorem step_connect (hidle : c.recv.phase = .idle) (hsock : c.sock = invalidSocket)
    (hconnect : c.isConnect = false) :
    client.step c (.connect 0 3 true) = some (c.connect 0 3 true).2 := by
  refine if_pos (c := c.recv.phase = .idle ∧ c.ConnectLegal 0 3 true) ⟨hidle, fun _ => ?_⟩
  have hopened : (c.opened 0 3).sock = 3 := by simp [opened, initSock, hsock, socketError]
  refine ⟨hconnect, ?_⟩
  rw [hopened]
  decide

theorem reachWithin_first_connect :
    client.ReachWithin (fun c i => StreamOk c i ∧ ConnectsEmpty c i)
      (new.connect 0 3 true).2 :=
  .step (i := .connect 0 3 true) .init
    ⟨streamOk_of_chunk_nil rfl Format.wellFormed_nil, fun _ => rfl⟩ (step_connect rfl rfl rfl)

/-- The first connection brings a message of four bytes. -/
theorem connection_framed_four :
    ∃ c, client.ReachWithin (fun c i => StreamOk c i ∧ ConnectsEmpty c i) c ∧
      c.recv.received = [4, 0, 0, 0] ∧ Framed c := by
  obtain ⟨c, hc, -, habs⟩ := exists_reachWithin_chunk (i := .connect 0 3 true) kept_new rfl
    (step_connect rfl rfl rfl) [4, 0, 0, 0] (by decide) (by decide) wellFormed_four
  have hreach : client.ReachWithin (fun c i => StreamOk c i ∧ ConnectsEmpty c i) c := by
    refine reachWithin_first_connect.trans (hc.mono fun c i hok => ⟨hok.1, fun hconnects => ?_⟩)
    rw [hok.2] at hconnects
    cases hconnects
  exact ⟨c, hreach, congrArg (·.received) habs, (connection_framed c).1 hreach⟩

/-- The first connection ends behind two bytes of a message of eight. -/
theorem exists_rest : ∃ c, client.ReachWithin StreamOk c ∧ c.recv.phase = .idle ∧
    messageFormat.WellFormed c.recv.received ∧ c.recv.buf.content = [8, 0] := by
  have hwell : messageFormat.WellFormed [8, 0] := by
    refine Format.wellFormed_of_prefix (m := [8, 0, 0, 0, 0, 0, 0, 0]) ⟨by decide, by decide⟩ ?_
    exact ⟨[0, 0, 0, 0, 0, 0], rfl⟩
  obtain ⟨c, hc, hvalid, habs⟩ := exists_reachWithin_chunk (i := .connect 0 3 true) kept_new
    rfl (step_connect rfl rfl rfl) [8, 0] (by decide) (by decide) hwell
  have hreach : client.ReachWithin StreamOk c :=
    (reachWithin_first_connect.mono fun _ _ hok => hok.1).trans (hc.mono fun _ _ hok => hok.1)
  have hphase : c.recv.phase = .extract := congrArg (·.phase) habs
  have hcontent : c.recv.buf.content = [8, 0] := by
    have hpending : c.recv.buf.content = new.recv.buf.content ++ [8, 0] :=
      congrArg (·.pending) habs
    rw [hpending, new, MsgBuf.content_new]
    rfl
  have hreceived : messageFormat.WellFormed c.recv.received := by
    rw [show c.recv.received = [8, 0] from congrArg (·.received) habs]
    exact hwell
  -- the call ends
  obtain ⟨-, hturn⟩ := hvalid.turn hphase
  have hincomplete : ¬ messageFormat.Complete c.recv.abs.pending := by
    show ¬ messageFormat.Complete c.recv.buf.content
    rw [hcontent]
    decide
  rw [FramedReceiver.step_turn_exit hphase hincomplete, Option.some.injEq] at hturn
  have hidle : (MsgBuf.turn c.recv).phase = .idle := (congrArg (·.phase) hturn).symm
  have hsame : (MsgBuf.turn c.recv).received = c.recv.received :=
    (congrArg (·.received) hturn).symm
  have hrest : (MsgBuf.turn c.recv).buf.content = c.recv.buf.content :=
    (congrArg (·.pending) hturn).symm
  refine ⟨c.turn, ?_, hidle, ?_, ?_⟩
  · exact hreach.step (i := .turn) (streamOk_of_chunk_nil rfl hreceived) (if_pos hphase)
  · rw [turn, hsame]
    exact hreceived
  · rw [turn, hrest, hcontent]

/-- After two bytes of a message of eight the client connects again, and the second connection
brings a message of four bytes. -/
theorem second_connection_not_framed : ¬ ∀ c, client.ReachWithin StreamOk c → Framed c := by
  intro hall
  obtain ⟨c, hc, hidle, hwell, hcontent⟩ := exists_rest
  have hclosed : client.step c .closeSock = some c.closeSock := if_pos hidle
  have hreach := hc.step (streamOk_of_chunk_nil rfl hwell) hclosed
  have hsock : c.closeSock.sock = invalidSocket := by
    by_cases hopen : c.sock ≠ invalidSocket
    · exact if_pos hopen
    · exact (if_neg hopen).trans (not_not.mp hopen)
  have hagain := step_connect (c := c.closeSock) hidle hsock rfl
  have hkept := kept_of_reachWithin hreach
  have hlast : c.closeSock.recv.buf.lastPos ≠ 0 := by
    have hlen := hkept.valid.length_content
    rw [show c.closeSock.recv.buf.content = [8, 0] from hcontent] at hlen
    rw [← hlen]
    decide
  refine not_framed_of_rest hkept rfl hagain hlast fun e he => ?_
  have hagain' := hreach.step (streamOk_of_chunk_nil rfl hwell) hagain
  exact hall e (hagain'.trans (he.mono fun _ _ hok => hok.1))

end Client
end EasyTcpServer
