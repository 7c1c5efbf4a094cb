import EasyTcpServer.Lib.FramedReceiver
import EasyTcpServer.Lib.WholeFrames

/-!
# A sender, a channel and a framed receiver

One direction of a connection.  A sender takes frames and puts their symbols on a channel,
at once or later; the channel keeps the order and loses nothing; a framed receiver takes symbols
off it, in chunks that the channel picks.  The sender, the channel and the loop of the receiver
go on side by side, in any order.

## What is provided

* `Carried`: what was accepted for sending is with the receiver or on its way.  Every step of
  either side keeps it.
* `Carried.exists_rest`: the frames handed on are the first that were accepted, and the symbols
  in the buffer and on their way are the others, one behind the other.
* `rank`: how many steps the receiver has left.  Reading something and a turn of the loop lower
  it.
* `Sender`: what a sender has to keep to: the symbols it lets out and those it still holds are
  the frames it has accepted.
* `link`: the machine of a sender and a receiver, and `Delivers`, what holds of each of its
  states: nothing is reordered, merged or split, the receiver cannot go on for ever without
  anything new, and when it cannot go on at all it has handed on everything the sender has let
  out.
-/

namespace EasyTcpServer

variable {α : Type*} {F : Format α} {N : ℕ}

namespace FramedReceiver

/-- The symbols an action takes off the channel. -/
def Act.chunk : Act α → List α
  | .arrive chunk => chunk
  | _ => []

@[simp] theorem Act.chunk_arrive (chunk : List α) : (Act.arrive chunk).chunk = chunk := rfl

@[simp] theorem Act.chunk_turn : (Act.turn : Act α).chunk = [] := rfl

variable (F N) in
/-- The frames `sent` are with the receiver or on the channel. -/
structure Carried (sent : List (List α)) (channel : List α) (s : State α) : Prop where
  frames : ∀ m ∈ sent, F.Frame m
  consistent : Consistent F N s
  stream : s.received ++ channel = sent.flatten

variable {sent : List (List α)} {channel : List α} {s t : State α}

theorem carried_init (hheader : 0 < F.headerSize) :
    Carried F N [] [] (framedReceiver F N).init :=
  ⟨fun _ h => absurd h List.not_mem_nil, consistent_init hheader, rfl⟩

/-- More frames are accepted. -/
theorem Carried.sendAll (h : Carried F N sent channel s) {ms : List (List α)}
    (hms : ∀ m ∈ ms, F.Frame m) : Carried F N (sent ++ ms) (channel ++ ms.flatten) s := by
  refine ⟨fun k hk => ?_, h.consistent, ?_⟩
  · rcases List.mem_append.mp hk with hk | hk
    · exact h.frames k hk
    · exact hms k hk
  · rw [← List.append_assoc, h.stream, List.flatten_append]

/-- The receiver takes a step. -/
theorem Carried.step {i : Act α} (h : Carried F N sent (i.chunk ++ channel) s)
    (hstep : (framedReceiver F N).step s i = some t) : Carried F N sent channel t := by
  refine ⟨h.frames, h.consistent.step hstep, ?_⟩
  rw [← h.stream, ← List.append_assoc]
  congr 1
  cases i with
  | arrive chunk =>
    obtain ⟨-, -, rfl⟩ := step_arrive_cases hstep
    rfl
  | quit =>
    obtain ⟨-, rfl⟩ := step_quit_cases hstep
    exact (List.append_nil _).symm
  | turn =>
    rw [Act.chunk_turn, List.append_nil]
    obtain ⟨-, ⟨-, -, rfl⟩ | ⟨-, -, rfl⟩ | ⟨-, rfl⟩⟩ := step_turn_cases hstep <;> rfl

/-! ## What the receiver has -/

theorem Carried.headersPositive (hheader : 0 < F.headerSize) (h : Carried F N sent channel s) :
    F.HeadersSatisfy (0 < ·) s.received :=
  Format.headersPositive_of_prefix hheader h.frames (h.stream ▸ List.prefix_append _ _)

theorem Carried.phase_ne_undefined (hheader : 0 < F.headerSize)
    (h : Carried F N sent channel s) : s.phase ≠ .undefined :=
  h.consistent.phase_ne_undefined ((h.headersPositive hheader).mono fun _ hn => le_of_lt hn)

theorem Carried.not_complete (hheader : 0 < F.headerSize) (h : Carried F N sent channel s)
    (hphase : s.phase ≠ .extract) : ¬ F.Complete s.pending :=
  h.consistent.not_complete ((h.headersPositive hheader).mono fun _ hn => le_of_lt hn) hphase

/-- **The frames handed on are the first that were sent**, and what is in the buffer and on the
channel are the others. -/
theorem Carried.exists_rest (hheader : 0 < F.headerSize) (h : Carried F N sent channel s) :
    ∃ rest, sent = s.delivered ++ rest ∧ s.pending ++ channel = rest.flatten := by
  have hcuts := h.consistent.cuts.append_right channel
  rw [h.stream] at hcuts
  exact Format.exists_rest_of_cuts hheader h.frames hcuts

/-- The frame that a complete buffer has in front is the next one that was sent. -/
theorem Carried.front (hheader : 0 < F.headerSize) (h : Carried F N sent channel s)
    (hcomplete : F.Complete s.pending) :
    ∃ m rest, sent = s.delivered ++ m :: rest ∧ m <+: s.pending ∧
      F.size s.pending = m.length := by
  obtain ⟨rest, hrest, hpending⟩ := h.exists_rest hheader
  cases rest with
  | nil =>
    have hnil : s.pending = [] := (List.append_eq_nil_iff.mp hpending).1
    have hlen := hcomplete.1
    rw [hnil, List.length_nil] at hlen
    omega
  | cons m rest =>
    have hm : F.Frame m := h.frames m (hrest ▸ List.mem_append_right _ List.mem_cons_self)
    rw [List.flatten_cons] at hpending
    have hsize : F.size s.pending = m.length := by
      rw [← Format.size_append channel hcomplete.1, hpending, hm.size_append]
    refine ⟨m, rest, hrest, ?_, hsize⟩
    refine List.prefix_of_prefix_length_le (hpending ▸ List.prefix_append m _)
      (List.prefix_append s.pending channel) ?_
    rw [← hsize]
    exact hcomplete.size_le

/-- When nothing is under way, a receiver that has left its loop has handed on everything. -/
theorem Carried.delivered_eq (hheader : 0 < F.headerSize) (h : Carried F N sent [] s)
    (hphase : s.phase ≠ .extract) : s.delivered = sent := by
  obtain ⟨rest, hrest, hpending⟩ := h.exists_rest hheader
  rw [List.append_nil] at hpending
  cases rest with
  | nil => rw [hrest, List.append_nil]
  | cons m rest =>
    have hm : F.Frame m := h.frames m (hrest ▸ List.mem_append_right _ List.mem_cons_self)
    have hcomplete : F.Complete s.pending := by
      rw [hpending, List.flatten_cons]
      exact hm.complete.append_right _
    exact absurd hcomplete (h.not_complete hheader hphase)

/-- A receiver that waits has room, when its buffer takes every frame. -/
theorem Carried.pending_lt (hheader : 0 < F.headerSize) (hN : F.headerSize ≤ N)
    (h : Carried F N sent channel s) (hfit : ∀ m ∈ sent, m.length ≤ N) (hphase : s.phase = .idle) :
    s.pending.length < N := by
  have hlengths : F.HeadersSatisfy (· ≤ N) s.received :=
    Format.headersSatisfy_of_prefix hheader h.frames (fun m hm => Int.ofNat_le.mpr (hfit m hm))
      (h.stream ▸ List.prefix_append _ _)
  have hincomplete := h.not_complete hheader (hphase ▸ by decide)
  exact Format.length_lt_of_not_complete hincomplete hN (hlengths.of_cuts h.consistent.cuts)

/-! ## How many steps are left -/

/-- Every symbol has to be taken off the channel and out of the buffer; a read puts the receiver
into its loop. -/
def rank (channel : List α) (s : State α) : ℕ :=
  4 * channel.length + 2 * s.pending.length + if s.phase = .extract then 1 else 0

/-- The steps that get on: reading something, and a turn of the loop. -/
def Act.Productive : Act α → Prop
  | .arrive chunk => chunk ≠ []
  | .quit => False
  | .turn => True

theorem rank_lt_of_step (hheader : 0 < F.headerSize) {i : Act α} (hi : i.Productive)
    (h : Carried F N sent (i.chunk ++ channel) s)
    (hstep : (framedReceiver F N).step s i = some t) :
    rank channel t < rank (i.chunk ++ channel) s := by
  cases i with
  | arrive chunk =>
    obtain ⟨hphase, -, rfl⟩ := step_arrive_cases hstep
    have hpos : 0 < chunk.length := List.length_pos_iff.mpr hi
    simp only [rank, Act.chunk_arrive, List.length_append, hphase, if_true]
    omega
  | quit => exact absurd hi id
  | turn =>
    obtain ⟨hphase, ⟨hcomplete, -, rfl⟩ | ⟨hcomplete, hneg, rfl⟩ | ⟨-, rfl⟩⟩ :=
      step_turn_cases hstep
    · have hpos := ((h.headersPositive hheader).of_cuts h.consistent.cuts).declared hcomplete.1
      have hlt := Format.length_drop_lt hcomplete hpos
      simp only [rank, Act.chunk_turn, List.nil_append, State.cut, hphase]
      omega
    · have hpos := ((h.headersPositive hheader).of_cuts h.consistent.cuts).declared hcomplete.1
      omega
    · simp [rank, hphase]

end FramedReceiver

open FramedReceiver

/-! ## Senders -/

variable {τ κ σ ι : Type*} {S : Machine τ κ} {M : Machine σ ι}

/-- A machine that accepts frames and lets out their symbols, as long as its steps meet a
condition. -/
structure Sender (S : Machine τ κ) (F : Format α) (N : ℕ) where
  /-- What holds of the sender's states throughout. -/
  Good : τ → Prop
  /-- The steps under which the stream is kept. -/
  Ok : τ → κ → Prop
  /-- The frames accepted so far. -/
  accepted : τ → List (List α)
  /-- The symbols accepted and not yet let out. -/
  held : τ → List α
  /-- The symbols a step lets out. -/
  emit : τ → κ → List α
  good_init : Good S.init
  accepted_init : accepted S.init = []
  held_init : held S.init = []
  step : ∀ {s t : τ} {i : κ}, Good s → Ok s i → S.step s i = some t → Good t ∧
    ∃ ms : List (List α), (∀ m ∈ ms, F.Frame m ∧ m.length ≤ N) ∧
      accepted t = accepted s ++ ms ∧ emit s i ++ held t = held s ++ ms.flatten

/-! ## The machine -/

/-- The sender, the symbols under way, and the receiver. -/
structure Link (α τ σ : Type*) where
  sender : τ
  channel : List α
  receiver : σ

/-- What can happen on a link. -/
inductive Link.Act (κ ι : Type*) where
  /-- The sender takes a step; what it lets out is put on the channel. -/
  | send (i : κ)
  /-- The receiver takes a step; what it reads is taken off the channel. -/
  | receive (i : ι)

/-- A sender and an implementation of the framed receiver, joined by a channel. -/
def link [DecidableEq α] (T : Sender S F N) (I : Implementation M F N) :
    Machine (Link α τ σ) (Link.Act κ ι) where
  init := ⟨S.init, [], M.init⟩
  step s
    | .send i =>
      (S.step s.sender i).map fun u =>
        { s with sender := u, channel := s.channel ++ T.emit s.sender i }
    | .receive i =>
      if (I.act i).chunk <+: s.channel then
        (M.step s.receiver i).map fun r =>
          { s with channel := s.channel.drop (I.act i).chunk.length, receiver := r }
      else none

namespace FramedReceiver.Implementation

/-- The receiver reads whatever chunk there is room for. -/
def Reads (I : Implementation M F N) : Prop :=
  ∀ s chunk, I.Good s → (I.abs s).phase = .idle → chunk ≠ [] →
    (I.abs s).pending.length + chunk.length ≤ N →
      ∃ i t, I.act i = .arrive chunk ∧ M.step s i = some t

end FramedReceiver.Implementation

namespace Link

variable [DecidableEq α] (T : Sender S F N) (I : Implementation M F N) {s t : Link α τ σ}

/-- The sender keeps to the stream. -/
def Ok (s : Link α τ σ) : Act κ ι → Prop
  | .send i => T.Ok s.sender i
  | .receive _ => True

/-- What is expected of a link: the frames handed on are the first that were accepted; as long
as the sender does nothing, the steps with which the receiver gets on are limited in number; a
receiver that cannot get on has read everything, and has handed on every frame once the sender
holds nothing back; and every receiver that has not given up gets there. -/
structure Delivers (s : Link α τ σ) : Prop where
  defined : (I.abs s.receiver).phase ≠ .undefined
  handed : ∃ rest, T.accepted s.sender = (I.abs s.receiver).delivered ++ rest ∧
    (I.abs s.receiver).pending ++ (s.channel ++ T.held s.sender) = rest.flatten
  bounded : ∀ (is : List ι) t, (∀ i ∈ is, (I.act i).Productive) →
    (link T I).run s (is.map .receive) = some t → is.length ≤ rank s.channel (I.abs s.receiver)
  complete : (I.abs s.receiver).phase ≠ .left →
    (∀ i t, (I.act i).Productive → (link T I).step s (.receive i) ≠ some t) →
      s.channel = [] ∧
        (T.held s.sender = [] → (I.abs s.receiver).delivered = T.accepted s.sender)
  completes : (I.abs s.receiver).phase ≠ .left →
    ∃ (is : List ι) (t : Link α τ σ), (link T I).run s (is.map .receive) = some t ∧
      t.sender = s.sender ∧ t.channel = [] ∧
        (T.held s.sender = [] → (I.abs t.receiver).delivered = T.accepted s.sender)

/-- What holds of the states of a link. -/
structure Inv (s : Link α τ σ) : Prop where
  good : I.Good s.receiver
  sender : T.Good s.sender
  carried : Carried F N (T.accepted s.sender) (s.channel ++ T.held s.sender) (I.abs s.receiver)
  fit : ∀ m ∈ T.accepted s.sender, m.length ≤ N

variable {T I}

/-- A step of the receiver. -/
theorem step_receive {i : ι} (h : (link T I).step s (.receive i) = some t) :
    s.channel = (I.act i).chunk ++ t.channel ∧ M.step s.receiver i = some t.receiver ∧
      t.sender = s.sender := by
  simp only [link, Option.ite_none_right_eq_some, Option.map_eq_some_iff] at h
  obtain ⟨⟨rest, hrest⟩, r, hr, rfl⟩ := h
  refine ⟨?_, hr, rfl⟩
  rw [← hrest, List.drop_left]

/-- A step of the sender. -/
theorem step_send {i : κ} (h : (link T I).step s (.send i) = some t) :
    S.step s.sender i = some t.sender ∧ t.channel = s.channel ++ T.emit s.sender i ∧
      t.receiver = s.receiver := by
  simp only [link, Option.map_eq_some_iff] at h
  obtain ⟨u, hu, rfl⟩ := h
  exact ⟨hu, rfl, rfl⟩

/-- A step of the sender that keeps to the stream is a step on the link. -/
theorem reachWithin_send (hs : (link T I).ReachWithin (Ok T) s) {i : κ} {u : τ}
    (hok : T.Ok s.sender i) (hstep : S.step s.sender i = some u) :
    (link T I).ReachWithin (Ok T)
      { s with sender := u, channel := s.channel ++ T.emit s.sender i } := by
  refine hs.step (i := .send i) hok ?_
  simp only [link, hstep, Option.map_some]

theorem inv_init (hheader : 0 < F.headerSize) : Inv T I (link T I).init := by
  have hcarried : Carried F N (T.accepted S.init) ([] ++ T.held S.init) (I.abs M.init) := by
    rw [T.accepted_init, T.held_init, I.abs_init]
    exact carried_init hheader
  refine ⟨I.good_init, T.good_init, hcarried, fun m hm => ?_⟩
  have hnone : m ∈ T.accepted S.init := hm
  rw [T.accepted_init] at hnone
  exact absurd hnone List.not_mem_nil

theorem Inv.receive (h : Inv T I s) {i : ι} (hstep : (link T I).step s (.receive i) = some t) :
    Inv T I t := by
  obtain ⟨hchannel, hr, hsender⟩ := step_receive hstep
  obtain ⟨hgood, habs⟩ := I.step h.good hr
  have hcarried := h.carried
  rw [hchannel, List.append_assoc] at hcarried
  refine ⟨hgood, hsender ▸ h.sender, ?_, hsender ▸ h.fit⟩
  rw [hsender]
  exact hcarried.step habs

theorem Inv.send (h : Inv T I s) {i : κ} (hok : T.Ok s.sender i)
    (hstep : (link T I).step s (.send i) = some t) : Inv T I t := by
  obtain ⟨hu, hchannel, hreceiver⟩ := step_send hstep
  obtain ⟨hgood, ms, hms, haccepted, hstream⟩ := T.step h.sender hok hu
  refine ⟨hreceiver ▸ h.good, hgood, ?_, fun m hm => ?_⟩
  · rw [hchannel, List.append_assoc, hstream, haccepted, hreceiver, ← List.append_assoc]
    exact h.carried.sendAll fun m hm => (hms m hm).1
  · rw [haccepted] at hm
    rcases List.mem_append.mp hm with hm | hm
    · exact h.fit m hm
    · exact (hms m hm).2

theorem inv_of_reachWithin (hheader : 0 < F.headerSize)
    (h : (link T I).ReachWithin (Ok T) s) : Inv T I s := by
  refine h.invariant (inv_init hheader) fun s i t hs hok hstep => ?_
  cases i with
  | send i => exact hs.send hok hstep
  | receive i => exact hs.receive hstep

/-- A step with which the receiver gets on lowers the rank. -/
theorem Inv.rank_lt (hheader : 0 < F.headerSize) (h : Inv T I s) {i : ι}
    (hi : (I.act i).Productive) (hstep : (link T I).step s (.receive i) = some t) :
    rank t.channel (I.abs t.receiver) < rank s.channel (I.abs s.receiver) := by
  obtain ⟨hchannel, hr, hsender⟩ := step_receive hstep
  have hcarried := h.carried
  rw [hchannel, List.append_assoc] at hcarried
  have hlt := rank_lt_of_step hheader hi hcarried (I.step h.good hr).2
  rw [hchannel]
  simp only [rank, List.length_append] at hlt ⊢
  omega

/-- **Steps that get on are limited in number.** -/
theorem Inv.length_le_rank (hheader : 0 < F.headerSize) (h : Inv T I s) {is : List ι}
    (his : ∀ i ∈ is, (I.act i).Productive) (hrun : (link T I).run s (is.map .receive) = some t) :
    is.length ≤ rank s.channel (I.abs s.receiver) := by
  induction is generalizing s with
  | nil => exact Nat.zero_le _
  | cons i is ih =>
    obtain ⟨hi, his⟩ := List.forall_mem_cons.mp his
    obtain ⟨u, hu, hrun⟩ := Option.bind_eq_some_iff.mp hrun
    have hlt := h.rank_lt hheader hi hu
    have hle := ih (h.receive hu) his hrun
    rw [List.length_cons]
    omega

/-- **A receiver that cannot get on** waits, and has read everything. -/
theorem Inv.idle_of_stuck (hheader : 0 < F.headerSize) (hN : F.headerSize ≤ N) (hreads : I.Reads)
    (h : Inv T I s) (hleft : (I.abs s.receiver).phase ≠ .left)
    (hstuck : ∀ i t, (I.act i).Productive → (link T I).step s (.receive i) ≠ some t) :
    (I.abs s.receiver).phase = .idle ∧ s.channel = [] := by
  cases hphase : (I.abs s.receiver).phase with
  | left => exact absurd hphase hleft
  | undefined => exact absurd hphase (h.carried.phase_ne_undefined hheader)
  | extract =>
    -- the loop can always be turned
    obtain ⟨r, hr⟩ := I.turn_enabled _ h.good hphase
    have hturn : (link T I).step s (.receive I.turn) =
        some { s with channel := s.channel.drop 0, receiver := r } := by
      simp only [link, I.act_turn, Act.chunk_turn, List.nil_prefix, if_true, hr, Option.map_some,
        List.length_nil]
    refine absurd hturn (hstuck _ _ ?_)
    rw [I.act_turn]
    trivial
  | idle =>
    refine ⟨rfl, ?_⟩
    cases hs : s.channel with
    | nil => rfl
    | cons a rest =>
      -- there is room for the first symbol
      have hroom := h.carried.pending_lt hheader hN h.fit hphase
      obtain ⟨i, r, hact, hr⟩ := hreads s.receiver [a] h.good hphase (List.cons_ne_nil _ _) hroom
      have hread : (link T I).step s (.receive i) =
          some { s with channel := s.channel.drop 1, receiver := r } := by
        simp only [link, hact, Act.chunk_arrive, hs, hr, Option.map_some, List.length_singleton]
        exact if_pos ⟨rest, rfl⟩
      refine absurd hread (hstuck _ _ ?_)
      rw [hact]
      exact List.cons_ne_nil _ _

omit [DecidableEq α] in
/-- A receiver that waits, with nothing under way and nothing held back, has handed on every
frame. -/
theorem Inv.delivered_eq (hheader : 0 < F.headerSize) (h : Inv T I s)
    (hidle : (I.abs s.receiver).phase = .idle) (hchannel : s.channel = [])
    (hheld : T.held s.sender = []) : (I.abs s.receiver).delivered = T.accepted s.sender := by
  have hcarried := h.carried
  rw [hchannel, hheld, List.append_nil] at hcarried
  exact hcarried.delivered_eq hheader (hidle ▸ by decide)

/-- Steps with which the receiver gets on do not give up. -/
theorem Inv.phase_ne_left (h : Inv T I s) {i : ι} (hi : (I.act i).Productive)
    (hstep : (link T I).step s (.receive i) = some t) (hleft : (I.abs s.receiver).phase ≠ .left) :
    (I.abs t.receiver).phase ≠ .left := by
  obtain ⟨-, hr, -⟩ := step_receive hstep
  have habs := (I.step h.good hr).2
  cases hact : I.act i with
  | arrive chunk =>
    rw [hact] at habs
    obtain ⟨-, -, ht⟩ := step_arrive_cases habs
    rw [ht]
    exact Phase.noConfusion
  | quit =>
    rw [hact] at hi
    exact absurd hi id
  | turn =>
    rw [hact] at habs
    obtain ⟨-, ⟨-, -, ht⟩ | ⟨-, -, ht⟩ | ⟨-, ht⟩⟩ := step_turn_cases habs
    · rw [ht]
      exact hleft
    · rw [ht]
      exact Phase.noConfusion
    · rw [ht]
      exact Phase.noConfusion

/-- **A receiver that has not given up gets on until it waits** and has read everything. -/
theorem Inv.exists_run (hheader : 0 < F.headerSize) (hN : F.headerSize ≤ N) (hreads : I.Reads)
    (h : Inv T I s) (hleft : (I.abs s.receiver).phase ≠ .left) :
    ∃ (is : List ι) (t : Link α τ σ), (link T I).run s (is.map .receive) = some t ∧
      t.sender = s.sender ∧ Inv T I t ∧ (I.abs t.receiver).phase = .idle ∧ t.channel = [] := by
  induction hn : rank s.channel (I.abs s.receiver) using Nat.strongRecOn generalizing s with
  | _ n ih =>
    by_cases hstuck : ∀ i t, (I.act i).Productive → (link T I).step s (.receive i) ≠ some t
    · obtain ⟨hidle, hchannel⟩ := h.idle_of_stuck hheader hN hreads hleft hstuck
      exact ⟨[], s, rfl, rfl, h, hidle, hchannel⟩
    · simp only [not_forall, not_not] at hstuck
      obtain ⟨i, u, hi, hstep⟩ := hstuck
      have hlt := h.rank_lt hheader hi hstep
      obtain ⟨is, t, hrun, hsender, ht⟩ :=
        ih _ (hn ▸ hlt) (h.receive hstep) (h.phase_ne_left hi hstep hleft) rfl
      refine ⟨i :: is, t, ?_, hsender.trans (step_receive hstep).2.2, ht⟩
      rw [List.map_cons, Machine.run_cons, hstep, Option.bind_some, hrun]

/-- **A link delivers.**  Whatever the sender accepts, as long as it keeps to the stream, and
however the channel cuts it. -/
theorem delivers (hheader : 0 < F.headerSize) (hN : F.headerSize ≤ N) (hreads : I.Reads)
    (h : (link T I).ReachWithin (Ok T) s) : Delivers T I s := by
  have hinv := inv_of_reachWithin hheader h
  refine ⟨hinv.carried.phase_ne_undefined hheader, hinv.carried.exists_rest hheader,
    fun _ _ his hrun => hinv.length_le_rank hheader his hrun, fun hleft hstuck => ?_,
    fun hleft => ?_⟩
  · obtain ⟨hidle, hchannel⟩ := hinv.idle_of_stuck hheader hN hreads hleft hstuck
    exact ⟨hchannel, hinv.delivered_eq hheader hidle hchannel⟩
  · obtain ⟨is, t, hrun, hsender, ht, hidle, hchannel⟩ :=
      hinv.exists_run hheader hN hreads hleft
    refine ⟨is, t, hrun, hsender, hchannel, fun hheld => ?_⟩
    rw [← hsender] at hheld ⊢
    exact ht.delivered_eq hheader hidle hchannel hheld

end Link
end EasyTcpServer
