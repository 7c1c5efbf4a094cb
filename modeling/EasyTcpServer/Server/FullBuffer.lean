import Mathlib.Data.List.Induction
import EasyTcpServer.Lib.WholeFrames
import EasyTcpServer.Server.RecvData

/-!
# A message larger than the receive buffer

`dataLength` is a short and may announce up to 32767 bytes; the receive buffer has 8192.  A
message that does not fit fills the buffer without ever being complete: `hasMsg` says no, the
fill level stays where it is, and `Read_for_Socket` returns zero without calling `recv`.
`recvData` takes the zero for a successful call, so nothing is reported and the connection
stays as it is for good (`stuck_forever`).

`recvData_neverFull_iff` says for which streams this does not happen: those none of whose
messages is longer than the buffer.  The receivers with a `_szMsgBuf` of 51200 bytes have no
such messages (`MsgBuf.receiver_framed`).
-/

namespace EasyTcpServer

open FramedReceiver (Phase)

namespace CellServer

section

variable (sendMem : Vector UInt8 sendBuffSize) (recvMem : Vector UInt8 recvBuffSize)
  (sockfd : Socket) {s t : RecvState} {msgs pre : List (List UInt8)} {m : List UInt8}

/-! ## Calls that end -/

/-- A turn of the loop receives nothing. -/
theorem received_iterate_turn {k : ℕ}
    (h : (newReceiver sendMem recvMem sockfd).iterate .turn k s = some t) :
    t.received = s.received := by
  induction k generalizing t with
  | zero =>
    obtain rfl : s = t := Option.some.inj h
    rfl
  | succ k ih =>
    obtain ⟨u, hu, hstep⟩ := Machine.iterate_succ_eq_some.mp h
    obtain ⟨-, rfl⟩ := Machine.guarded_eq_some.mp hstep
    rw [← ih hu]
    unfold turn
    split
    · split <;> rfl
    · rfl

/-- **A whole call of `recvData`**, in which `recv` brings a chunk and every header met is
positive: it ends, with the chunk received. -/
theorem exists_reachable_idle (hs : (newReceiver sendMem recvMem sockfd).Reachable s)
    (hidle : s.phase = .idle) (chunk : List UInt8) (hne : 1 ≤ chunk.length)
    (hle : (chunk.length : ℤ) ≤ s.client.recvBuff.room)
    (hpos : messageFormat.HeadersSatisfy (0 < ·) (s.received ++ chunk)) :
    ∃ t, (newReceiver sendMem recvMem sockfd).Reachable t ∧ t.phase = .idle ∧
      t.received = s.received ++ chunk := by
  let I := newReceiver.implementation sendMem recvMem sockfd
  have hgood : s.Good recvBuffSize := (I.toRefinement.reachable hs).1
  have hroom : 0 < s.client.recvBuff.room := by omega
  have hlegal : (Recv.bytes chunk).Legal s.client.recvBuff.room := ⟨hne, hle⟩
  -- the read
  have hread : (newReceiver sendMem recvMem sockfd).step s (.recv (.bytes chunk)) =
      some (enter s (.bytes chunk)) := if_pos ⟨hidle, hroom, hlegal⟩
  obtain ⟨-, -, habs⟩ :=
    FramedReceiver.step_arrive_cases (hgood.enter_bytes hidle hroom hlegal).2
  have hphase : (enter s (.bytes chunk)).phase = .extract := congrArg (·.phase) habs
  have hreceived : (enter s (.bytes chunk)).received = s.received ++ chunk :=
    congrArg (·.received) habs
  -- the loop
  have hreach := hs.next hread
  obtain ⟨k, t, ht, htphase⟩ :=
    (I.framing (by decide) hreach (by rwa [← hreceived] at hpos)).1 hphase
  refine ⟨t, hreach.of_run ht, htphase, ?_⟩
  rw [received_iterate_turn sendMem recvMem sockfd ht, hreceived]

/-- Outside a call the buffer holds what the reference parser leaves. -/
theorem content_eq_parse (hs : (newReceiver sendMem recvMem sockfd).Reachable s)
    (hidle : s.phase = .idle) (hpos : messageFormat.HeadersSatisfy (0 < ·) s.received) :
    s.client.recvBuff.content = (messageFormat.parse s.received).2 := by
  let I := newReceiver.implementation sendMem recvMem sockfd
  have hparse := (I.framing (by decide) hs hpos).2 (by
    show s.phase ≠ .extract
    rw [hidle]
    decide)
  rw [show messageFormat.parse s.received = (s.delivered, s.client.recvBuff.content) from hparse]

/-! ## Messages that fit -/

theorem room_of_good {N : ℕ} (h : s.Good N) (hempty : s.client.recvBuff.content = []) :
    s.client.recvBuff.room = N := by
  rw [h.room, hempty]
  simp

/-- Messages that fit in the buffer, received one in each call, leave it empty. -/
theorem exists_reachable_flatten (hpre : ∀ m ∈ pre, messageFormat.Frame m)
    (hfits : ∀ m ∈ pre, m.length ≤ recvBuffSize) :
    ∃ s, (newReceiver sendMem recvMem sockfd).Reachable s ∧ s.phase = .idle ∧
      s.received = pre.flatten ∧ s.client.recvBuff.content = [] := by
  induction pre using List.reverseRecOn with
  | nil =>
    refine ⟨(newReceiver sendMem recvMem sockfd).init, .init, rfl, rfl, ?_⟩
    exact CellBuffer.content_new recvMem
  | append_singleton pre m ih =>
    have hframes : ∀ m ∈ pre, messageFormat.Frame m :=
      fun m hm => hpre m (List.mem_append_left _ hm)
    have hm : m ∈ pre ++ [m] := List.mem_append_right _ (List.mem_singleton_self m)
    obtain ⟨s, hs, hidle, hreceived, hempty⟩ :=
      ih hframes fun m hm => hfits m (List.mem_append_left _ hm)
    let I := newReceiver.implementation sendMem recvMem sockfd
    have hgood : s.Good recvBuffSize := (I.toRefinement.reachable hs).1
    have hstream : s.received ++ m = (pre ++ [m]).flatten := by
      rw [hreceived]
      simp
    have hpos : messageFormat.HeadersSatisfy (0 < ·) (s.received ++ m) := by
      rw [hstream]
      exact Format.headersPositive_of_prefix (by decide) hpre (List.prefix_refl _)
    have hheader := (hpre m hm).header
    obtain ⟨t, ht, htidle, htreceived⟩ := exists_reachable_idle sendMem recvMem sockfd hs hidle
      m (by rw [messageFormat_headerSize] at hheader; omega)
      (by rw [room_of_good hgood hempty]; exact Int.ofNat_le.mpr (hfits m hm)) hpos
    rw [hstream] at htreceived
    refine ⟨t, ht, htidle, htreceived, ?_⟩
    rw [content_eq_parse sendMem recvMem sockfd ht htidle (by rwa [htreceived, ← hstream]),
      htreceived, Format.parse_flatten (by decide) hpre]

/-! ## A message that does not fit -/

/-- A message longer than the buffer, received up to the size of the buffer. -/
theorem exists_reachable_full (hpre : ∀ m ∈ pre, messageFormat.Frame m)
    (hfits : ∀ m ∈ pre, m.length ≤ recvBuffSize) (hm : messageFormat.Frame m)
    (hlong : recvBuffSize < m.length) :
    ∃ s, (newReceiver sendMem recvMem sockfd).Reachable s ∧ s.phase = .idle ∧
      s.received = pre.flatten ++ m.take recvBuffSize ∧ s.client.recvBuff.room = 0 := by
  obtain ⟨s, hs, hidle, hreceived, hempty⟩ :=
    exists_reachable_flatten sendMem recvMem sockfd hpre hfits
  let I := newReceiver.implementation sendMem recvMem sockfd
  have hgood : s.Good recvBuffSize := (I.toRefinement.reachable hs).1
  have hlength : (m.take recvBuffSize).length = recvBuffSize := by
    rw [List.length_take]
    exact Nat.min_eq_left (Nat.le_of_lt hlong)
  have hframes : ∀ k ∈ pre ++ [m], messageFormat.Frame k := by
    intro k hk
    rcases List.mem_append.mp hk with hk | hk
    · exact hpre k hk
    · rw [List.mem_singleton] at hk
      exact hk ▸ hm
  have hprefix : s.received ++ m.take recvBuffSize <+: (pre ++ [m]).flatten := by
    rw [hreceived, List.flatten_append, List.flatten_singleton]
    exact (List.prefix_append_right_inj _).mpr (List.take_prefix _ _)
  have hpos := Format.headersPositive_of_prefix (by decide) hframes hprefix
  obtain ⟨t, ht, htidle, htreceived⟩ := exists_reachable_idle sendMem recvMem sockfd hs hidle
    (m.take recvBuffSize) (by rw [hlength]; decide)
    (by rw [room_of_good hgood hempty, hlength]) hpos
  refine ⟨t, ht, htidle, by rw [htreceived, hreceived], ?_⟩
  -- the first `RECV_BUFF_SIZE` bytes of the message are no message
  have hincomplete : ¬ messageFormat.Complete (m.take recvBuffSize) := by
    intro hcomplete
    have hdeclared := messageFormat.declared_append (m.take recvBuffSize) (m.drop recvBuffSize)
      hcomplete.1
    rw [List.take_append_drop, hm.declared] at hdeclared
    have hle := hcomplete.2
    rw [← hdeclared, hlength] at hle
    omega
  have hcontent : t.client.recvBuff.content = m.take recvBuffSize := by
    rw [content_eq_parse sendMem recvMem sockfd ht htidle (by rwa [htreceived]), htreceived,
      hreceived, Format.parse_flatten_append (by decide) hpre,
      Format.parse_of_not_complete hincomplete]
  have htgood : t.Good recvBuffSize := (I.toRefinement.reachable ht).1
  rw [htgood.room, hcontent, hlength, sub_self]

/-- **A full buffer without a complete message stays as it is**, whatever the peer sends: the
only call possible reads nothing and its loop ends at once. -/
theorem stuck_forever (hidle : s.phase = .idle) (hfull : s.client.recvBuff.room = 0)
    (hmsg : s.client.hasMsg = false) (i : RecvAct) :
    (newReceiver sendMem recvMem sockfd).step s i = none ∨
      ((newReceiver sendMem recvMem sockfd).step s i).bind
        ((newReceiver sendMem recvMem sockfd).step · .turn) = some s := by
  cases i with
  | recv o => exact Or.inl (if_neg fun h => by omega)
  | turn =>
    refine Or.inl (if_neg ?_)
    rw [hidle]
    decide
  | full =>
    have hread : s.client.recvBuff.readForSocket (.fail 0) = some (0, s.client.recvBuff) := by
      simp [CellBuffer.readForSocket, hfull]
    have henter : enter s (.fail 0) = { s with phase := .extract } := by
      simp [enter, CellClient.recvData, hread, Recv.received]
    have hstep : (newReceiver sendMem recvMem sockfd).step s .full =
        some { s with phase := .extract } := by
      rw [← henter]
      exact if_pos ⟨hidle, by omega⟩
    refine Or.inr ?_
    rw [hstep, Option.bind_some]
    simp [newReceiver, receiver, turn, hmsg, ← hidle]

/-! ## Which streams get through -/

/-- The next call asks `recv` for at least one byte, and a full buffer holds a complete
message. -/
def NeverFull (s : RecvState) : Prop :=
  (s.phase = .idle → 1 ≤ s.client.recvBuff.room) ∧
    (s.client.recvBuff.room < 1 → s.client.hasMsg = true)

/-- Messages that fit never fill the buffer. -/
theorem neverFull_of_fits (hmsgs : ∀ m ∈ msgs, messageFormat.Frame m)
    (hfits : ∀ m ∈ msgs, m.length ≤ recvBuffSize)
    (hs : (newReceiver sendMem recvMem sockfd).Reachable s)
    (hreceived : s.received <+: msgs.flatten) : NeverFull s := by
  let I := newReceiver.implementation sendMem recvMem sockfd
  have hgood : s.Good recvBuffSize := (I.toRefinement.reachable hs).1
  have hconsistent := I.consistent (by decide) hs
  have hheaders : messageFormat.HeadersSatisfy (· ≤ (recvBuffSize : ℤ)) s.received := by
    refine Format.headersSatisfy_of_prefix (by decide) hmsgs (fun m hm => ?_) hreceived
    exact Int.ofNat_le.mpr (hfits m hm)
  -- what is incomplete is shorter than the buffer
  have hroom : ¬ messageFormat.Complete s.client.recvBuff.content →
      1 ≤ s.client.recvBuff.room := by
    intro hincomplete
    have hshort := Format.length_lt_of_not_complete hincomplete (n := recvBuffSize) (by decide)
      (hheaders.of_cuts hconsistent.cuts)
    rw [hgood.room]
    omega
  refine ⟨fun hidle => hroom (hconsistent.idle (Or.inl hidle)), fun hfull => ?_⟩
  by_contra hmsg
  have := hroom (mt hgood.valid.hasMsg_iff.mpr hmsg)
  omega

/-- A stream with a message that does not fit has a first one. -/
theorem exists_first_long (hlong : ∃ m ∈ msgs, recvBuffSize < m.length) :
    ∃ pre m post, msgs = pre ++ m :: post ∧ (∀ k ∈ pre, k.length ≤ recvBuffSize) ∧
      recvBuffSize < m.length := by
  induction msgs with
  | nil =>
    obtain ⟨m, hm, -⟩ := hlong
    exact absurd hm List.not_mem_nil
  | cons k msgs ih =>
    by_cases hk : recvBuffSize < k.length
    · exact ⟨[], k, msgs, rfl, fun _ h => absurd h List.not_mem_nil, hk⟩
    · obtain ⟨m, hm, hlen⟩ := hlong
      rcases List.mem_cons.mp hm with rfl | hm
      · exact absurd hlen hk
      · obtain ⟨pre, m, post, rfl, hpre, hm⟩ := ih ⟨m, hm, hlen⟩
        refine ⟨k :: pre, m, post, rfl, fun j hj => ?_, hm⟩
        rcases List.mem_cons.mp hj with rfl | hj
        · omega
        · exact hpre j hj

/-- **Which streams get through the 8192-byte receiver.**  For a stream of messages, sent up
to any point and cut by `recv` in any way: the buffer is never full without a complete message
exactly when every message fits in it. -/
theorem recvData_neverFull_iff (msgs : List (List UInt8))
    (hmsgs : ∀ m ∈ msgs, messageFormat.Frame m) :
    (∀ s, (newReceiver sendMem recvMem sockfd).Reachable s → s.received <+: msgs.flatten →
        NeverFull s) ↔
      ∀ m ∈ msgs, m.length ≤ recvBuffSize := by
  constructor
  · intro hnever
    by_contra hfits
    push Not at hfits
    obtain ⟨pre, m, post, rfl, hpre, hlong⟩ := exists_first_long hfits
    have hm : messageFormat.Frame m :=
      hmsgs m (List.mem_append_right _ List.mem_cons_self)
    obtain ⟨s, hs, hidle, hreceived, hfull⟩ := exists_reachable_full sendMem recvMem sockfd
      (fun k hk => hmsgs k (List.mem_append_left _ hk)) hpre hm hlong
    have hprefix : s.received <+: (pre ++ m :: post).flatten := by
      rw [hreceived, List.flatten_append, List.flatten_cons]
      exact (List.prefix_append_right_inj _).mpr
        ((List.take_prefix _ _).trans (List.prefix_append _ _))
    have hroom := (hnever s hs hprefix).1 hidle
    omega
  · intro hfits s hs hreceived
    exact neverFull_of_fits sendMem recvMem sockfd hmsgs hfits hs hreceived

end

/-- A message of 8193 bytes, one more than the buffer has. -/
def longMessage : List UInt8 := 1 :: 32 :: List.replicate 8191 0

theorem length_longMessage : longMessage.length = 8193 := by
  unfold longMessage
  rw [List.length_cons, List.length_cons, List.length_replicate]

theorem frame_longMessage : messageFormat.Frame longMessage := by
  refine ⟨?_, ?_⟩
  · rw [length_longMessage]
    decide
  · rw [length_longMessage]
    decide

/-- A stream of a single short message. -/
theorem recvData_neverFull_short :
    (∀ s, (newReceiver (.replicate _ 0) (.replicate _ 0) 3).Reachable s →
        s.received <+: [[5, 0, 0, 0, 9]].flatten → NeverFull s) ↔
      ∀ m ∈ [[5, 0, 0, 0, (9 : UInt8)]], m.length ≤ recvBuffSize :=
  recvData_neverFull_iff (.replicate _ 0) (.replicate _ 0) 3 [[5, 0, 0, 0, 9]]
    fun m hm => (List.mem_singleton.mp hm) ▸ ⟨by decide, by decide⟩

/-- A message of 8193 bytes fills the buffer and is never handed on. -/
theorem longMessage_fills_buffer :
    ¬ ∀ msgs : List (List UInt8), (∀ m ∈ msgs, messageFormat.Frame m) →
      ∀ s, (newReceiver (.replicate _ 0) (.replicate _ 0) 3).Reachable s →
        s.received <+: msgs.flatten → NeverFull s := by
  intro hall
  have hframes : ∀ m ∈ ([] : List (List UInt8)), messageFormat.Frame m :=
    fun _ h => absurd h List.not_mem_nil
  obtain ⟨s, hs, hidle, hreceived, hfull⟩ :=
    exists_reachable_full (.replicate _ 0) (.replicate _ 0) 3 hframes
      (fun _ h => absurd h List.not_mem_nil) frame_longMessage
      (by rw [length_longMessage]; decide)
  have hprefix : s.received <+: [longMessage].flatten := by
    rw [hreceived, List.flatten_nil, List.nil_append, List.flatten_singleton]
    exact List.take_prefix _ _
  have hroom := (hall [longMessage] (fun m hm => List.mem_singleton.mp hm ▸ frame_longMessage)
    s hs hprefix).1 hidle
  omega

end CellServer
end EasyTcpServer
