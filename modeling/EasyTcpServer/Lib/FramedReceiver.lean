import Mathlib.Data.Int.Order.Basic
import EasyTcpServer.Lib.Framing
import EasyTcpServer.Lib.Machine

/-!
# A receiver that reassembles frames

The machine every framed receiver implements.  Symbols arrive in chunks and are kept in a
buffer of bounded capacity; after each arrival a loop hands on complete frames until none
is left.  The loop tests only that the declared length is not more than what is there.
A declared length of zero therefore hands on an empty frame and changes nothing, and a
negative one asks for a cut the buffer does not contain: from there on the behaviour is
`undefined`.

The whole stream so far and the frames handed on are part of the state, so that a
statement about "everything received" is a statement about one state.

## What is provided

* `Consistent`, kept by every step (`Reachable.consistent`): the frames handed on are cuts
  of the stream and the buffer is exactly what these cuts leave.
* `Consistent.deliveries_eq_parse`: between two arrivals the frames handed on are the
  reference parse of the stream, provided every header met is positive.
* `exists_iterate_cut`: the loop follows every sequence of cuts of the buffer, which is
  how a bad header anywhere in the buffer is shown to be reached.
* `Consistent.extraction_stays_defined_iff` and `extraction_decreases_iff`: the exact
  conditions on the headers under which the loop never leaves the buffer, respectively
  shrinks it at every turn and ends.
* `Implementation`: a program that refines this machine turn by turn inherits all of this.
-/

namespace EasyTcpServer

variable {α : Type*}

namespace FramedReceiver

/-- Where the receiver stands. -/
inductive Phase where
  /-- Waiting for the next arrival. -/
  | idle
  /-- In the loop that hands on complete frames. -/
  | extract
  /-- The connection is given up. -/
  | left
  /-- A cut outside the buffer was asked for. -/
  | undefined
  deriving DecidableEq, Repr

/-- The receiver's state. -/
structure State (α : Type*) where
  phase : Phase
  /-- Everything that has arrived. -/
  received : List α
  /-- The frames handed on, in order. -/
  delivered : List (List α)
  /-- The buffer. -/
  pending : List α
  deriving DecidableEq

/-- What can happen to a receiver. -/
inductive Act (α : Type*) where
  /-- Some symbols arrive, possibly none, and the loop is entered. -/
  | arrive (chunk : List α)
  /-- The connection fails. -/
  | quit
  /-- One turn of the loop. -/
  | turn

/-- Hand on the frame at the front of the buffer. -/
def State.cut (F : Format α) (s : State α) : State α :=
  { s with
    delivered := s.delivered ++ [s.pending.take (F.size s.pending)]
    pending := s.pending.drop (F.size s.pending) }

end FramedReceiver

open FramedReceiver

variable (F : Format α) (N : ℕ)

/-- The receiver for a format, with a buffer that holds at most `N` symbols. -/
def framedReceiver : Machine (State α) (Act α) where
  init := ⟨.idle, [], [], []⟩
  step s
    | .arrive chunk =>
      if s.phase = .idle ∧ s.pending.length + chunk.length ≤ N then
        some { s with
          phase := .extract
          received := s.received ++ chunk
          pending := s.pending ++ chunk }
      else none
    | .quit => if s.phase = .idle then some { s with phase := .left } else none
    | .turn =>
      if s.phase = .extract then
        if F.Complete s.pending then
          if 0 ≤ F.declared s.pending then some (s.cut F)
          else some { s with phase := .undefined }
        else some { s with phase := .idle }
      else none

namespace FramedReceiver

variable {F N} {s t : State α}

/-! ## What one step can do -/

theorem step_turn_cut (hphase : s.phase = .extract) (hcomplete : F.Complete s.pending)
    (hnonneg : 0 ≤ F.declared s.pending) :
    (framedReceiver F N).step s .turn = some (s.cut F) := by
  simp [framedReceiver, hphase, hcomplete, hnonneg]

theorem step_turn_undefined (hphase : s.phase = .extract) (hcomplete : F.Complete s.pending)
    (hneg : F.declared s.pending < 0) :
    (framedReceiver F N).step s .turn = some { s with phase := .undefined } := by
  simp [framedReceiver, hphase, hcomplete, not_le.mpr hneg]

theorem step_turn_exit (hphase : s.phase = .extract) (hincomplete : ¬ F.Complete s.pending) :
    (framedReceiver F N).step s .turn = some { s with phase := .idle } := by
  simp [framedReceiver, hphase, hincomplete]

/-- The three outcomes of a turn of the loop. -/
theorem step_turn_cases (h : (framedReceiver F N).step s .turn = some t) :
    s.phase = .extract ∧
      ((F.Complete s.pending ∧ 0 ≤ F.declared s.pending ∧ t = s.cut F) ∨
        (F.Complete s.pending ∧ F.declared s.pending < 0 ∧ t = { s with phase := .undefined }) ∨
        (¬ F.Complete s.pending ∧ t = { s with phase := .idle })) := by
  by_cases hphase : s.phase = .extract
  · refine ⟨hphase, ?_⟩
    by_cases hcomplete : F.Complete s.pending
    · rcases le_or_gt 0 (F.declared s.pending) with hsign | hsign
      · rw [step_turn_cut hphase hcomplete hsign, Option.some.injEq] at h
        exact Or.inl ⟨hcomplete, hsign, h.symm⟩
      · rw [step_turn_undefined hphase hcomplete hsign, Option.some.injEq] at h
        exact Or.inr (Or.inl ⟨hcomplete, hsign, h.symm⟩)
    · rw [step_turn_exit hphase hcomplete, Option.some.injEq] at h
      exact Or.inr (Or.inr ⟨hcomplete, h.symm⟩)
  · simp [framedReceiver, hphase] at h

theorem step_arrive_cases {chunk : List α}
    (h : (framedReceiver F N).step s (.arrive chunk) = some t) :
    s.phase = .idle ∧ s.pending.length + chunk.length ≤ N ∧
      t = { s with
        phase := .extract
        received := s.received ++ chunk
        pending := s.pending ++ chunk } := by
  have h := Machine.guarded_eq_some.mp h
  exact ⟨h.1.1, h.1.2, h.2⟩

theorem step_quit_cases (h : (framedReceiver F N).step s .quit = some t) :
    s.phase = .idle ∧ t = { s with phase := .left } :=
  Machine.guarded_eq_some.mp h

/-! ## The invariant -/

variable (F N)

/-- The frames handed on and the buffer account for the whole stream. -/
structure Consistent (s : State α) : Prop where
  cuts : F.Cuts s.received s.delivered s.pending
  room : s.pending.length ≤ N
  /-- Outside the loop the buffer holds no complete frame. -/
  idle : s.phase = .idle ∨ s.phase = .left → ¬ F.Complete s.pending
  /-- The undefined state is entered in front of a negative length. -/
  undefined : s.phase = .undefined → F.Complete s.pending ∧ F.declared s.pending < 0

variable {F N}

theorem Consistent.step (h : Consistent F N s) {i : Act α}
    (hstep : (framedReceiver F N).step s i = some t) : Consistent F N t := by
  cases i with
  | arrive chunk =>
    obtain ⟨_, hroom, rfl⟩ := step_arrive_cases hstep
    refine ⟨h.cuts.append_right chunk, ?_, by simp, by simp⟩
    rwa [List.length_append]
  | quit =>
    obtain ⟨hphase, rfl⟩ := step_quit_cases hstep
    exact ⟨h.cuts, h.room, fun _ => h.idle (Or.inl hphase), by simp⟩
  | turn =>
    obtain ⟨hphase, ⟨hcomplete, hnonneg, rfl⟩ | ⟨hcomplete, hneg, rfl⟩ | ⟨hincomplete, rfl⟩⟩ :=
      step_turn_cases hstep
    · refine ⟨h.cuts.snoc hcomplete hnonneg, ?_, by simp [State.cut, hphase],
        by simp [State.cut, hphase]⟩
      rw [State.cut, List.length_drop]
      exact Nat.le_trans (Nat.sub_le _ _) h.room
    · exact ⟨h.cuts, h.room, by simp, fun _ => ⟨hcomplete, hneg⟩⟩
    · exact ⟨h.cuts, h.room, fun _ => hincomplete, by simp⟩

/-- What a receiver is waiting with is never a complete frame, so an empty buffer starts
consistent only if the format has a header. -/
theorem consistent_init (hheader : 0 < F.headerSize) :
    Consistent F N (framedReceiver F N).init := by
  refine ⟨.nil _, Nat.zero_le _, fun _ hcomplete => ?_, by simp [framedReceiver]⟩
  have h := hcomplete.1
  simp only [framedReceiver, List.length_nil] at h
  omega

theorem Reachable.consistent (hheader : 0 < F.headerSize)
    (h : (framedReceiver F N).Reachable s) : Consistent F N s :=
  Machine.Reachable.invariant (consistent_init hheader) (fun _ _ _ hs => hs.step) h

/-- A negative length cannot be the first of a sequence of cuts. -/
theorem cuts_eq_of_neg {xs ys : List α} {ms : List (List α)} (h : F.Cuts xs ms ys)
    (hneg : F.declared xs < 0) : ys = xs := by
  cases h with
  | nil => rfl
  | cons _ hnonneg _ => omega

theorem Consistent.phase_ne_undefined (h : Consistent F N s)
    (hnonneg : F.HeadersSatisfy (0 ≤ ·) s.received) : s.phase ≠ .undefined := by
  intro hphase
  obtain ⟨hcomplete, hneg⟩ := h.undefined hphase
  have := (hnonneg.of_cuts h.cuts).declared hcomplete.1
  omega

/-- Outside the loop the buffer holds no complete frame, when no header is negative. -/
theorem Consistent.not_complete (h : Consistent F N s)
    (hnonneg : F.HeadersSatisfy (0 ≤ ·) s.received) (hphase : s.phase ≠ .extract) :
    ¬ F.Complete s.pending := by
  refine h.idle ?_
  cases hs : s.phase with
  | idle => exact Or.inl rfl
  | left => exact Or.inr rfl
  | extract => exact absurd hs hphase
  | undefined => exact absurd hs (h.phase_ne_undefined hnonneg)

/-- **Between arrivals the frames handed on are the parse of the stream**, and the buffer
is the remainder. -/
theorem Consistent.deliveries_eq_parse (h : Consistent F N s)
    (hpos : F.HeadersSatisfy (0 < ·) s.received) (hphase : s.phase ≠ .extract) :
    F.parse s.received = (s.delivered, s.pending) :=
  h.cuts.eq_parse hpos (h.not_complete (hpos.mono fun _ hn => le_of_lt hn) hphase)

/-! ## The extraction loop -/

/-- **The loop follows every sequence of cuts of the buffer.** -/
theorem exists_iterate_cut {xs ys : List α} {ms : List (List α)} (h : F.Cuts xs ms ys)
    {s : State α} (hphase : s.phase = .extract) (hxs : s.pending = xs) :
    (framedReceiver F N).iterate .turn ms.length s =
      some { s with delivered := s.delivered ++ ms, pending := ys } := by
  induction h generalizing s with
  | nil => rw [← hxs, List.length_nil, Machine.iterate_zero, List.append_nil]
  | @cons xs ys ms hcomplete hnonneg _ ih =>
    subst hxs
    have hrest := ih (s := s.cut F) hphase rfl
    rw [List.length_cons, Machine.iterate_succ, step_turn_cut hphase hcomplete hnonneg,
      Option.bind_some, hrest]
    simp [State.cut]

/-- However often the loop turns: what it hands on is cut off the buffer it started with. -/
theorem exists_delivered_of_iterate {k : ℕ}
    (h : (framedReceiver F N).iterate .turn k s = some t) :
    ∃ ms, F.Cuts s.pending ms t.pending ∧ t.delivered = s.delivered ++ ms ∧
      t.received = s.received := by
  induction k generalizing t with
  | zero =>
    rw [Machine.iterate_zero, Option.some.injEq] at h
    exact ⟨[], h ▸ .nil _, h ▸ (List.append_nil _).symm, h ▸ rfl⟩
  | succ k ih =>
    obtain ⟨u, hu, hstep⟩ := Machine.iterate_succ_eq_some.mp h
    obtain ⟨ms, hcuts, hdelivered, hreceived⟩ := ih hu
    obtain ⟨-, ⟨hcomplete, hnonneg, rfl⟩ | ⟨-, -, rfl⟩ | ⟨-, rfl⟩⟩ := step_turn_cases hstep
    · refine ⟨_, hcuts.snoc hcomplete hnonneg, ?_, hreceived⟩
      rw [State.cut, hdelivered, List.append_assoc]
    · exact ⟨ms, hcuts, hdelivered, hreceived⟩
    · exact ⟨ms, hcuts, hdelivered, hreceived⟩

/-- However often the loop turns, its buffer is what some cuts leave of the buffer it
started with. -/
theorem exists_cuts_of_iterate {k : ℕ}
    (h : (framedReceiver F N).iterate .turn k s = some t) :
    ∃ ms, F.Cuts s.pending ms t.pending := by
  obtain ⟨ms, hcuts, -⟩ := exists_delivered_of_iterate h
  exact ⟨ms, hcuts⟩

/-- **When extraction stays inside the buffer.**  From a consistent state the loop, run
for any number of turns, never becomes undefined exactly when no header met in the stream
is negative. -/
theorem Consistent.extraction_stays_defined_iff (h : Consistent F N s) :
    (∀ k t, (framedReceiver F N).iterate .turn k s = some t → t.phase ≠ .undefined) ↔
      F.HeadersSatisfy (0 ≤ ·) s.received := by
  constructor
  · rintro hdefined ys ⟨⟨ms, hms⟩, hlen⟩
    by_contra hlt
    rw [not_le] at hlt
    have hcomplete : F.Complete ys := ⟨hlen, by omega⟩
    -- the header at `ys` lies ahead of the buffer, so the loop gets there
    obtain ⟨ns, hns⟩ : ∃ ns, F.Cuts s.pending ns ys := by
      rcases h.cuts.linear hms with hahead | ⟨ns, hbehind⟩
      · exact hahead
      · rw [cuts_eq_of_neg hbehind hlt]
        exact ⟨[], .nil _⟩
    by_cases hphase : s.phase = .extract
    · have hat := exists_iterate_cut (N := N) hns hphase rfl
      refine hdefined (ns.length + 1) _ (Machine.iterate_succ_eq_some.mpr
        ⟨_, hat, step_turn_undefined hphase hcomplete hlt⟩) rfl
    · have hstop : s.phase = .idle ∨ s.phase = .left := by
        have h0 := hdefined 0 s rfl
        cases hs : s.phase with
        | idle => exact Or.inl rfl
        | left => exact Or.inr rfl
        | extract => exact absurd hs hphase
        | undefined => exact absurd hs h0
      have hincomplete := h.idle hstop
      cases hns with
      | nil => exact hincomplete hcomplete
      | cons hc _ _ => exact hincomplete hc
  · intro hnonneg k t ht
    induction k generalizing s with
    | zero =>
      rw [Machine.iterate_zero, Option.some.injEq] at ht
      exact ht ▸ h.phase_ne_undefined hnonneg
    | succ k ih =>
      rw [Machine.iterate_succ] at ht
      obtain ⟨u, hu, ht⟩ := Option.bind_eq_some_iff.mp ht
      have hreceived : u.received = s.received := by
        rcases (step_turn_cases hu).2 with ⟨_, _, rfl⟩ | ⟨_, _, rfl⟩ | ⟨_, rfl⟩ <;> rfl
      exact ih (h.step hu) (hreceived ▸ hnonneg) ht

/-- The loop of a buffer whose headers are positive ends, and hands on at most one frame
for each symbol of the buffer. -/
theorem exists_iterate_exit {xs : List α} (hpos : F.HeadersSatisfy (0 < ·) xs)
    {s : State α} (hphase : s.phase = .extract) (hxs : s.pending = xs) :
    ∃ k t, k ≤ xs.length ∧ (framedReceiver F N).iterate .turn k s = some t ∧
      t.phase = .extract ∧ ¬ F.Complete t.pending := by
  induction hn : xs.length using Nat.strongRecOn generalizing s xs with
  | _ n ih =>
    subst hxs hn
    by_cases hcomplete : F.Complete s.pending
    · have hdecl := hpos.declared hcomplete.1
      have hlt := Format.length_drop_lt hcomplete hdecl
      have hcut := step_turn_cut (N := N) hphase hcomplete (le_of_lt hdecl)
      obtain ⟨k, t, hk, ht, hend⟩ := ih _ hlt
        (hpos.of_cuts (.cons hcomplete (le_of_lt hdecl) (.nil _)))
        (s := s.cut F) hphase rfl rfl
      refine ⟨k + 1, t, by omega, ?_, hend⟩
      rw [Machine.iterate_succ, hcut]
      exact ht
    · exact ⟨0, s, Nat.zero_le _, rfl, hphase, hcomplete⟩

/-- **When extraction shrinks the buffer at every turn and ends.**  This is decided by the
headers the loop meets in the buffer it starts with. -/
theorem extraction_decreases_iff (hphase : s.phase = .extract) :
    ((∃ k t, k ≤ s.pending.length ∧
        (framedReceiver F N).iterate .turn k s = some t ∧
        t.phase = .extract ∧ ¬ F.Complete t.pending) ∧
      ∀ k t u, (framedReceiver F N).iterate .turn k s = some t →
        t.phase = .extract → F.Complete t.pending →
        (framedReceiver F N).step t .turn = some u →
        u.phase = .extract ∧ u.pending.length < t.pending.length) ↔
      F.HeadersSatisfy (0 < ·) s.pending := by
  constructor
  · rintro ⟨⟨k, t, -, ht, htphase, hend⟩, hdec⟩ ys ⟨⟨ms, hms⟩, hlen⟩
    by_contra hnonpos
    rw [not_lt] at hnonpos
    have hcomplete : F.Complete ys := ⟨hlen, by omega⟩
    have hat := exists_iterate_cut (N := N) hms hphase rfl
    rcases lt_or_ge (F.declared ys) 0 with hneg | hzero
    · have h := (hdec _ _ _ hat hphase hcomplete
        (step_turn_undefined hphase hcomplete hneg)).1
      cases h
    · have h := (hdec _ _ _ hat hphase hcomplete
        (step_turn_cut hphase hcomplete hzero)).2
      have hsize : F.size ys = 0 := by
        unfold Format.size
        omega
      simp [State.cut, hsize] at h
  · intro hpos
    refine ⟨exists_iterate_exit hpos hphase rfl, ?_⟩
    intro k t u ht htphase hcomplete hstep
    obtain ⟨ms, hcuts⟩ := exists_cuts_of_iterate ht
    have hdecl := (hpos.of_cuts hcuts).declared hcomplete.1
    obtain ⟨_, ⟨_, _, rfl⟩ | ⟨_, hneg, _⟩ | ⟨hincomplete, _⟩⟩ := step_turn_cases hstep
    · exact ⟨htphase, Format.length_drop_lt hcomplete hdecl⟩
    · omega
    · exact absurd hcomplete hincomplete

/-! ## Implementations

A program that refines the framed receiver, with one of its labels as the turn of the
loop, inherits the results above.  They are restated for the program's own runs. -/

variable {σ ι : Type*}

/-- A machine that refines the framed receiver turn by turn. -/
structure Implementation (M : Machine σ ι) (F : Format α) (N : ℕ) extends
    Machine.Refinement M (framedReceiver F N) where
  /-- The label of a turn of the loop. -/
  turn : ι
  act_turn : act turn = .turn
  /-- The loop can always go on. -/
  turn_enabled : ∀ s, Good s → (abs s).phase = .extract → ∃ t, M.step s turn = some t

namespace Implementation

variable {M : Machine σ ι} {s t : σ} (I : Implementation M F N)

theorem iterate_abs (k : ℕ) (hs : I.Good s) :
    (M.iterate I.turn k s).map I.abs = (framedReceiver F N).iterate .turn k (I.abs s) := by
  rw [← I.act_turn]
  refine I.toRefinement.iterate_abs (fun u hu hnone => ?_) k hs
  by_cases hphase : (I.abs u).phase = .extract
  · obtain ⟨v, hv⟩ := I.turn_enabled u hu hphase
    rw [hnone] at hv
    cases hv
  · simp [I.act_turn, framedReceiver, hphase]

/-- Turns of the framed receiver are turns of the program. -/
theorem exists_iterate {k : ℕ} (hs : I.Good s) {u : State α}
    (h : (framedReceiver F N).iterate .turn k (I.abs s) = some u) :
    ∃ t, M.iterate I.turn k s = some t ∧ I.abs t = u := by
  rw [← I.iterate_abs k hs] at h
  exact Option.map_eq_some_iff.mp h

/-- Turns of the program are turns of the framed receiver. -/
theorem iterate_eq_some {k : ℕ} (hs : I.Good s) (h : M.iterate I.turn k s = some t) :
    (framedReceiver F N).iterate .turn k (I.abs s) = some (I.abs t) := by
  rw [← I.iterate_abs k hs, h]
  rfl

theorem consistent (hheader : 0 < F.headerSize) (h : M.Reachable s) :
    Consistent F N (I.abs s) :=
  Reachable.consistent hheader (I.toRefinement.reachable h).2

/-- What a first arrival followed by turns of the framed receiver leads to, the program can
be led to. -/
theorem exists_reachable_of_arrival {i : ι} {chunk : List α} (hact : I.act i = .arrive chunk)
    (henabled : ∃ s, M.step M.init i = some s) {k : ℕ} {u : State α}
    (h : (framedReceiver F N).iterate .turn k ⟨.extract, chunk, [], chunk⟩ = some u) :
    ∃ t, M.Reachable t ∧ I.Good t ∧ I.abs t = u := by
  obtain ⟨s, hs⟩ := henabled
  obtain ⟨hgood, habs⟩ := I.step I.good_init hs
  rw [hact, I.abs_init] at habs
  obtain ⟨-, -, hs_abs⟩ := step_arrive_cases habs
  have hstart : I.abs s = ⟨.extract, chunk, [], chunk⟩ := hs_abs
  obtain ⟨t, ht, htu⟩ := I.exists_iterate hgood (hstart ▸ h)
  exact ⟨t, (Machine.Reachable.next .init hs).of_run ht,
    I.toRefinement.good_iterate k hgood ht, htu⟩

/-- **Framing.**  With positive headers every call ends, and between calls the frames
handed on are the parse of the stream and the buffer holds the remainder. -/
theorem framing (hheader : 0 < F.headerSize) (h : M.Reachable s)
    (hpos : F.HeadersSatisfy (0 < ·) (I.abs s).received) :
    ((I.abs s).phase = .extract →
        ∃ k t, M.iterate I.turn k s = some t ∧ (I.abs t).phase = .idle) ∧
      ((I.abs s).phase ≠ .extract →
        F.parse (I.abs s).received = ((I.abs s).delivered, (I.abs s).pending)) := by
  have hconsistent := I.consistent hheader h
  refine ⟨fun hphase => ?_, hconsistent.deliveries_eq_parse hpos⟩
  have hrest := hpos.of_cuts hconsistent.cuts
  obtain ⟨k, u, -, hu, huphase, hend⟩ := exists_iterate_exit (N := N) hrest hphase rfl
  have hexit := Machine.iterate_succ_eq_some.mpr ⟨u, hu, step_turn_exit huphase hend⟩
  obtain ⟨t, ht, habs⟩ := I.exists_iterate (I.toRefinement.reachable h).1 hexit
  exact ⟨k + 1, t, ht, by rw [habs]⟩

/-- **An arrival is worked off.**  With positive headers the turns behind an arrival come to an
end, and what has been handed on then is the parse of the stream with the new bytes. -/
theorem exists_call (hheader : 0 < F.headerSize) (h : M.Reachable s) {i : ι} {chunk : List α}
    (hact : I.act i = .arrive chunk) (hstep : M.step s i = some t)
    (hpos : F.HeadersSatisfy (0 < ·) ((I.abs s).received ++ chunk)) :
    ∃ k u, M.iterate I.turn k t = some u ∧ (I.abs u).phase = .idle ∧
      (I.abs u).received = (I.abs s).received ++ chunk ∧
      F.parse ((I.abs s).received ++ chunk) = ((I.abs u).delivered, (I.abs u).pending) := by
  have ht := h.next hstep
  obtain ⟨hgood, habs⟩ := I.step (I.toRefinement.reachable h).1 hstep
  rw [hact] at habs
  obtain ⟨-, -, ht_abs⟩ := step_arrive_cases habs
  have hreceived : (I.abs t).received = (I.abs s).received ++ chunk := by rw [ht_abs]
  rw [← hreceived] at hpos ⊢
  obtain ⟨k, u, hu, hidle⟩ := (I.framing hheader ht hpos).1 (by rw [ht_abs])
  have hsame : (I.abs u).received = (I.abs t).received := by
    obtain ⟨-, -, -, hsame⟩ := exists_delivered_of_iterate (I.iterate_eq_some hgood hu)
    exact hsame
  refine ⟨k, u, hu, hidle, hsame, ?_⟩
  rw [← hsame] at hpos ⊢
  exact (I.framing hheader (ht.of_run hu) hpos).2 (by simp [hidle])

/-- **Staying defined.**  The loop never leaves the buffer exactly when no header met in
the stream is negative. -/
theorem stays_defined_iff (hheader : 0 < F.headerSize) (h : M.Reachable s) :
    (∀ k t, M.iterate I.turn k s = some t → (I.abs t).phase ≠ .undefined) ↔
      F.HeadersSatisfy (0 ≤ ·) (I.abs s).received := by
  have hgood := (I.toRefinement.reachable h).1
  rw [← (I.consistent hheader h).extraction_stays_defined_iff]
  constructor
  · intro hdefined k u hu
    obtain ⟨t, ht, rfl⟩ := I.exists_iterate hgood hu
    exact hdefined k t ht
  · intro hdefined k t ht
    exact hdefined k _ (I.iterate_eq_some hgood ht)

/-- **Termination.**  The loop shrinks the buffer at every turn, and so ends, exactly when
every header it meets is positive. -/
theorem decreases_iff (hs : I.Good s) (hphase : (I.abs s).phase = .extract) :
    ((∃ k t, k ≤ (I.abs s).pending.length ∧ M.iterate I.turn k s = some t ∧
        (I.abs t).phase = .extract ∧ ¬ F.Complete (I.abs t).pending) ∧
      ∀ k t u, M.iterate I.turn k s = some t → (I.abs t).phase = .extract →
        F.Complete (I.abs t).pending → M.step t I.turn = some u →
        (I.abs u).phase = .extract ∧
          (I.abs u).pending.length < (I.abs t).pending.length) ↔
      F.HeadersSatisfy (0 < ·) (I.abs s).pending := by
  rw [← extraction_decreases_iff (N := N) hphase]
  constructor
  · rintro ⟨⟨k, t, hk, ht, hend⟩, hdec⟩
    refine ⟨⟨k, _, hk, I.iterate_eq_some hs ht, hend⟩, ?_⟩
    intro k x y hx hxphase hcomplete hxy
    have hy := Machine.iterate_succ_eq_some.mpr ⟨x, hx, hxy⟩
    obtain ⟨u, hu, rfl⟩ := I.exists_iterate hs hy
    obtain ⟨t, ht, htu⟩ := Machine.iterate_succ_eq_some.mp hu
    obtain rfl : I.abs t = x := Option.some.inj ((I.iterate_eq_some hs ht).symm.trans hx)
    exact hdec k t u ht hxphase hcomplete htu
  · rintro ⟨⟨k, x, hk, hx, hend⟩, hdec⟩
    obtain ⟨t, ht, rfl⟩ := I.exists_iterate hs hx
    refine ⟨⟨k, t, hk, ht, hend⟩, ?_⟩
    intro k t u ht htphase hcomplete htu
    have hstep := (I.step (I.toRefinement.good_iterate k hs ht) htu).2
    rw [I.act_turn] at hstep
    exact hdec k _ _ (I.iterate_eq_some hs ht) htphase hcomplete hstep

/-- **Termination, in the program's terms.**  The same with the program's own fill level
and its own test for a complete frame. -/
theorem terminates_iff {level : σ → ℤ} {hasMsg : σ → Bool}
    (hlevel : ∀ s, I.Good s → ((I.abs s).pending.length : ℤ) = level s)
    (hmsg : ∀ s, I.Good s → (hasMsg s = true ↔ F.Complete (I.abs s).pending))
    (hs : I.Good s) (hphase : (I.abs s).phase = .extract) :
    ((∃ (k : ℕ) (t : σ), (k : ℤ) ≤ level s ∧ M.iterate I.turn k s = some t ∧
        (I.abs t).phase = .extract ∧ hasMsg t = false) ∧
      ∀ k t u, M.iterate I.turn k s = some t → (I.abs t).phase = .extract →
        hasMsg t = true → M.step t I.turn = some u →
        (I.abs u).phase = .extract ∧ level u < level t) ↔
      F.HeadersSatisfy (0 < ·) (I.abs s).pending := by
  rw [← I.decreases_iff hs hphase]
  have hgood {k t} (ht : M.iterate I.turn k s = some t) : I.Good t :=
    I.toRefinement.good_iterate k hs ht
  constructor
  · rintro ⟨⟨k, t, hk, ht, htphase, hend⟩, hdec⟩
    refine ⟨⟨k, t, ?_, ht, htphase, ?_⟩, ?_⟩
    · rw [← hlevel s hs] at hk
      exact Int.ofNat_le.mp hk
    · rw [← hmsg t (hgood ht), hend]
      exact Bool.false_ne_true
    · intro k t u ht htphase hcomplete hstep
      obtain ⟨huphase, hlt⟩ := hdec k t u ht htphase ((hmsg t (hgood ht)).mpr hcomplete) hstep
      rw [← hlevel t (hgood ht), ← hlevel u (I.step (hgood ht) hstep).1] at hlt
      exact ⟨huphase, Int.ofNat_lt.mp hlt⟩
  · rintro ⟨⟨k, t, hk, ht, htphase, hend⟩, hdec⟩
    refine ⟨⟨k, t, ?_, ht, htphase, ?_⟩, ?_⟩
    · rw [← hlevel s hs]
      exact Int.ofNat_le.mpr hk
    · rw [← Bool.not_eq_true, hmsg t (hgood ht)]
      exact hend
    · intro k t u ht htphase hcomplete hstep
      obtain ⟨huphase, hlt⟩ := hdec k t u ht htphase ((hmsg t (hgood ht)).mp hcomplete) hstep
      rw [← hlevel t (hgood ht), ← hlevel u (I.step (hgood ht) hstep).1]
      exact ⟨huphase, Int.ofNat_lt.mpr hlt⟩

/-- **A length of zero spins.**  The loop can be turned any number of times without
leaving the place. -/
theorem spins_of_zero (hs : I.Good s) (hphase : (I.abs s).phase = .extract)
    (hcomplete : F.Complete (I.abs s).pending) (hzero : F.declared (I.abs s).pending = 0)
    (k : ℕ) : ∃ t, M.iterate I.turn k s = some t ∧ (I.abs t).phase = .extract ∧
      (I.abs t).pending = (I.abs s).pending := by
  have hspin := exists_iterate_cut (N := N) (Format.cuts_replicate_nil hcomplete hzero k) hphase rfl
  rw [List.length_replicate] at hspin
  obtain ⟨t, ht, habs⟩ := I.exists_iterate hs hspin
  exact ⟨t, ht, by rw [habs]; exact hphase, by rw [habs]⟩

end Implementation

end FramedReceiver
end EasyTcpServer
