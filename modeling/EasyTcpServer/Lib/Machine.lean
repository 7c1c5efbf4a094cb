import Mathlib.Data.List.Basic
import Mathlib.Data.Option.Basic

/-!
# Labelled machines and their runs

A concurrent program is modelled as a partial step function on states, labelled by
what happens: a thread's next step, an outcome the environment picks, an operation a
caller starts.  All nondeterminism is in the labels, so a machine can be run on a
concrete list of labels, and "for every interleaving" is "for every list of labels".

## What is provided

* `run` executes a list of labels, `ReachWithin ok` is reachability by steps that all
  meet a condition `ok` on the state before the step, and `Reachable` is reachability
  without a condition.
* `ReachWithin.invariant` is the one induction every safety proof uses: what holds of the
  initial state and is kept by every allowed step holds of every state reached.
* `recorded` keeps the labels taken so far, for conditions on the history of a run.
* `Refinement` relates a machine to a more abstract one.  Its field `step` is the only
  obligation; `Refinement.reachWithin` transports reachability, and with it every
  invariant of the abstract machine.
* `iterate` repeats one label.  A loop of the program is one label taken again and again,
  so termination of the loop is a statement about `iterate`.  `exists_iterate_of_rank` proves it
  by a rank that every turn lowers.
-/

namespace EasyTcpServer

variable {σ ι τ κ : Type*}

/-- A labelled machine: an initial state and a partial step function. -/
structure Machine (σ ι : Type*) where
  /-- Where every run starts. -/
  init : σ
  /-- One step; `none` when the label is not enabled in the state. -/
  step : σ → ι → Option σ

namespace Machine

variable (M : Machine σ ι)

/-- A step that is enabled when `p` holds. -/
theorem guarded_eq_some {p : Prop} [Decidable p] {t u : σ} :
    (if p then some u else none) = some t ↔ p ∧ t = u := by
  rw [Option.ite_none_right_eq_some, Option.some.injEq, eq_comm]

/-! ## Runs -/

/-- Take the steps of a list of labels, in order. -/
def run : σ → List ι → Option σ
  | s, [] => some s
  | s, i :: is => (M.step s i).bind fun t => run t is

@[simp] theorem run_nil (s : σ) : M.run s [] = some s := rfl

@[simp] theorem run_cons (s : σ) (i : ι) (is : List ι) :
    M.run s (i :: is) = (M.step s i).bind fun t => M.run t is := rfl

theorem run_append (s : σ) (is js : List ι) :
    M.run s (is ++ js) = (M.run s is).bind fun t => M.run t js := by
  induction is generalizing s with
  | nil => rfl
  | cons i is ih =>
    rw [List.cons_append, run_cons, run_cons]
    cases M.step s i with
    | none => rfl
    | some t => exact ih t

variable {M} in
theorem run_snoc_eq_some {s u : σ} {is : List ι} {i : ι} :
    M.run s (is ++ [i]) = some u ↔ ∃ t, M.run s is = some t ∧ M.step t i = some u := by
  rw [run_append]
  simp [Option.bind_eq_some_iff]

/-- **The rule for a given run.**  What every step with an allowed label keeps holds behind a run
of allowed labels. -/
theorem run_invariant {M : Machine σ ι} {I : σ → Prop} {P : ι → Prop}
    (hstep : ∀ s i t, P i → I s → M.step s i = some t → I t) {s t : σ} {is : List ι}
    (his : ∀ i ∈ is, P i) (hs : I s) (hrun : M.run s is = some t) : I t := by
  induction is generalizing s with
  | nil =>
    rw [run_nil, Option.some.injEq] at hrun
    exact hrun ▸ hs
  | cons i is ih =>
    obtain ⟨u, hu, hrun⟩ := Option.bind_eq_some_iff.mp hrun
    exact ih (fun j hj => his j (List.mem_cons_of_mem i hj))
      (hstep s i u (his i List.mem_cons_self) hs hu) hrun

/-- Take one label `k` times. -/
def iterate (i : ι) (k : ℕ) (s : σ) : Option σ := M.run s (List.replicate k i)

@[simp] theorem iterate_zero (i : ι) (s : σ) : M.iterate i 0 s = some s := rfl

theorem iterate_succ (i : ι) (k : ℕ) (s : σ) :
    M.iterate i (k + 1) s = (M.step s i).bind (M.iterate i k) := rfl

variable {M} in
theorem iterate_succ_eq_some {i : ι} {k : ℕ} {s u : σ} :
    M.iterate i (k + 1) s = some u ↔ ∃ t, M.iterate i k s = some t ∧ M.step t i = some u := by
  unfold iterate
  rw [List.replicate_succ', run_snoc_eq_some]

/-- **Repeating a simulated label.**  When one label of `M` does to the abstract states what
one label of `N` does, so does repeating it. -/
theorem iterate_map {M : Machine σ ι} {N : Machine τ κ} {f : σ → τ} {G : σ → Prop} {i : ι} {j : κ}
    (hstep : ∀ s, G s → (M.step s i).map f = N.step (f s) j ∧ ∀ t, M.step s i = some t → G t)
    (k : ℕ) {s : σ} (hs : G s) : (M.iterate i k s).map f = N.iterate j k (f s) := by
  induction k generalizing s with
  | zero => rfl
  | succ k ih =>
    obtain ⟨hmap, hgood⟩ := hstep s hs
    rw [iterate_succ, iterate_succ, ← hmap]
    cases ht : M.step s i with
    | none => rfl
    | some t => exact ih (hgood t ht)

/-- **The progress rule.**  When a label lowers a rank in every state of `P` that is not in `Q`,
and stays in `P`, repeating it comes to `Q`. -/
theorem exists_iterate_of_rank {M : Machine σ ι} {P Q : σ → Prop} {i : ι} (rank : σ → ℕ)
    (hstep : ∀ s, P s → ¬ Q s → ∃ t, M.step s i = some t ∧ P t ∧ rank t < rank s) {s : σ}
    (hs : P s) : ∃ k t, M.iterate i k s = some t ∧ P t ∧ Q t := by
  induction hn : rank s using Nat.strongRecOn generalizing s with
  | _ n ih =>
    by_cases hq : Q s
    · exact ⟨0, s, rfl, hs, hq⟩
    · obtain ⟨t, ht, hp, hlt⟩ := hstep s hs hq
      obtain ⟨k, u, hu, hpu, hqu⟩ := ih (rank t) (hn ▸ hlt) hp rfl
      refine ⟨k + 1, u, ?_, hpu, hqu⟩
      rw [iterate_succ, ht, Option.bind_some, hu]

/-- The same machine, started in another state. -/
def startAt (s : σ) : Machine σ ι := { M with init := s }

@[simp] theorem startAt_step (s t : σ) (i : ι) : (M.startAt s).step t i = M.step t i := rfl

/-! ## Reachability -/

/-- The states reached from the initial one by steps that all meet `ok`, a condition on
the state before the step and the label. -/
inductive ReachWithin (ok : σ → ι → Prop) : σ → Prop where
  | init : ReachWithin ok M.init
  | step {s t : σ} {i : ι} :
      ReachWithin ok s → ok s i → M.step s i = some t → ReachWithin ok t

/-- The states some run arrives at. -/
def Reachable : σ → Prop := M.ReachWithin fun _ _ => True

variable {M}

theorem ReachWithin.reachable {ok : σ → ι → Prop} {s : σ} (h : M.ReachWithin ok s) :
    M.Reachable s := by
  induction h with
  | init => exact .init
  | step _ _ hstep ih => exact .step ih trivial hstep

theorem Reachable.next {s t : σ} {i : ι} (h : M.Reachable s) (hstep : M.step s i = some t) :
    M.Reachable t :=
  ReachWithin.step h trivial hstep

theorem Reachable.of_run {s t : σ} {is : List ι} (h : M.Reachable s)
    (hrun : M.run s is = some t) : M.Reachable t :=
  run_invariant (P := fun _ => True) (fun _ _ _ _ hs hstep => hs.next hstep) (fun _ _ => trivial) h
    hrun

/-- A run from the initial state reaches its last state. -/
theorem reachable_of_run {t : σ} {is : List ι} (hrun : M.run M.init is = some t) :
    M.Reachable t :=
  Reachable.of_run .init hrun

/-- A run from the initial state whose last state passes a test.  Both sides of the
hypothesis are closed terms for a concrete run, so the kernel can evaluate it. -/
theorem exists_reachable_of_run (is : List ι) (p : σ → Bool)
    (h : (M.run M.init is).map p = some true) : ∃ s, M.Reachable s ∧ p s = true := by
  obtain ⟨s, hs, hp⟩ := Option.map_eq_some_iff.mp h
  exact ⟨s, reachable_of_run hs, hp⟩

/-- Take the steps of a list of labels as long as they meet `ok`. -/
def runWithin (M : Machine σ ι) (ok : σ → ι → Prop) [∀ s i, Decidable (ok s i)] :
    σ → List ι → Option σ
  | s, [] => some s
  | s, i :: is => if ok s i then (M.step s i).bind fun t => runWithin M ok t is else none

theorem ReachWithin.of_runWithin {ok : σ → ι → Prop} [∀ s i, Decidable (ok s i)] {s t : σ}
    {is : List ι} (h : M.ReachWithin ok s) (hrun : M.runWithin ok s is = some t) :
    M.ReachWithin ok t := by
  induction is generalizing s with
  | nil =>
    obtain rfl : s = t := Option.some.inj hrun
    exact h
  | cons i is ih =>
    rw [runWithin, Option.ite_none_right_eq_some, Option.bind_eq_some_iff] at hrun
    obtain ⟨hok, u, hu, hrun⟩ := hrun
    exact ih (h.step hok hu) hrun

/-- The same test for a run all of whose steps meet a decidable condition. -/
theorem exists_reachWithin_of_run (ok : σ → ι → Prop) [∀ s i, Decidable (ok s i)] (is : List ι)
    (p : σ → Bool) (h : (M.runWithin ok M.init is).map p = some true) :
    ∃ s, M.ReachWithin ok s ∧ p s = true := by
  obtain ⟨s, hs, hp⟩ := Option.map_eq_some_iff.mp h
  exact ⟨s, ReachWithin.init.of_runWithin hs, hp⟩

/-- **The invariant rule.**  A property of the initial state that every allowed step
keeps holds of every state reached by allowed steps. -/
theorem ReachWithin.invariant {ok : σ → ι → Prop} {I : σ → Prop} (hinit : I M.init)
    (hstep : ∀ s i t, I s → ok s i → M.step s i = some t → I t) {s : σ}
    (h : M.ReachWithin ok s) : I s := by
  induction h with
  | init => exact hinit
  | step _ hok hst ih => exact hstep _ _ _ ih hok hst

/-- The invariant rule for runs without a condition. -/
theorem Reachable.invariant {I : σ → Prop} (hinit : I M.init)
    (hstep : ∀ s i t, I s → M.step s i = some t → I t) {s : σ}
    (h : M.Reachable s) : I s :=
  ReachWithin.invariant hinit (fun s i t hs _ => hstep s i t hs) h

theorem ReachWithin.mono {ok ok' : σ → ι → Prop} (h : ∀ s i, ok s i → ok' s i) {s : σ}
    (hs : M.ReachWithin ok s) : M.ReachWithin ok' s := by
  induction hs with
  | init => exact .init
  | step _ hok hstep ih => exact .step ih (h _ _ hok) hstep

/-- A run goes on from where another has arrived. -/
theorem ReachWithin.trans {ok : σ → ι → Prop} {s t : σ} (hs : M.ReachWithin ok s)
    (ht : (M.startAt s).ReachWithin ok t) : M.ReachWithin ok t := by
  induction ht with
  | init => exact hs
  | step _ hok hstep ih => exact .step ih hok hstep

/-! ## Runs with their history -/

/-- The same machine with the labels taken so far next to the state, so that a condition on a
step can speak of what has happened. -/
def recorded (M : Machine σ ι) : Machine (List ι × σ) ι where
  init := ([], M.init)
  step h i := (M.step h.2 i).map fun t => (h.1 ++ [i], t)

theorem recorded_step {h k : List ι × σ} {i : ι} :
    M.recorded.step h i = some k ↔ M.step h.2 i = some k.2 ∧ k.1 = h.1 ++ [i] := by
  show Option.map _ _ = _ ↔ _
  rw [Option.map_eq_some_iff]
  constructor
  · rintro ⟨t, ht, rfl⟩
    exact ⟨ht, rfl⟩
  · rintro ⟨ht, hlabels⟩
    exact ⟨k.2, ht, Prod.ext hlabels.symm rfl⟩

/-! ## Refinement -/

variable (M) (N : Machine τ κ)

/-- `M` refines `N`: every step of `M` from a good state is a step of `N` on the abstract
states, and good states stay good. -/
structure Refinement where
  /-- What holds of the concrete states throughout. -/
  Good : σ → Prop
  /-- The abstract state a concrete state stands for. -/
  abs : σ → τ
  /-- The abstract label a concrete label stands for. -/
  act : ι → κ
  good_init : Good M.init
  abs_init : abs M.init = N.init
  step : ∀ {s t : σ} {i : ι}, Good s → M.step s i = some t →
    Good t ∧ N.step (abs s) (act i) = some (abs t)

variable {M N}

/-- A state reached by allowed steps is good and stands for one reached by allowed steps. -/
theorem Refinement.good_reachWithin (R : Refinement M N) {ok : σ → ι → Prop} {ok' : τ → κ → Prop}
    (hok : ∀ s i, R.Good s → ok s i → ok' (R.abs s) (R.act i)) {s : σ} (h : M.ReachWithin ok s) :
    R.Good s ∧ N.ReachWithin ok' (R.abs s) := by
  induction h with
  | init => exact ⟨R.good_init, R.abs_init ▸ ReachWithin.init⟩
  | step _ hi hstep ih =>
    obtain ⟨hgood, habs⟩ := R.step ih.1 hstep
    exact ⟨hgood, ih.2.step (hok _ _ ih.1 hi) habs⟩

/-- Every reachable concrete state is good and stands for a reachable abstract state. -/
theorem Refinement.reachable (R : Refinement M N) {s : σ} (h : M.Reachable s) :
    R.Good s ∧ N.Reachable (R.abs s) :=
  R.good_reachWithin (fun _ _ _ hi => hi) h

theorem Refinement.reachWithin (R : Refinement M N) {ok : σ → ι → Prop} {ok' : τ → κ → Prop}
    (hok : ∀ s i, R.Good s → ok s i → ok' (R.abs s) (R.act i)) {s : σ} (h : M.ReachWithin ok s) :
    N.ReachWithin ok' (R.abs s) :=
  (R.good_reachWithin hok h).2

/-- A label that is enabled in `M` whenever it is in `N`: then repeating it in `M` and
in `N` is the same computation. -/
theorem Refinement.iterate_abs (R : Refinement M N) {i : ι}
    (henabled : ∀ s, R.Good s → M.step s i = none → N.step (R.abs s) (R.act i) = none)
    (k : ℕ) {s : σ} (hs : R.Good s) :
    (M.iterate i k s).map R.abs = N.iterate (R.act i) k (R.abs s) := by
  refine iterate_map (fun u hu => ⟨?_, fun t hstep => (R.step hu hstep).1⟩) k hs
  cases hstep : M.step u i with
  | none => rw [henabled u hu hstep, Option.map_none]
  | some t => rw [(R.step hu hstep).2, Option.map_some]

/-- Repeating a label keeps the concrete states good. -/
theorem Refinement.good_iterate (R : Refinement M N) {i : ι} (k : ℕ) {s t : σ}
    (hs : R.Good s) (h : M.iterate i k s = some t) : R.Good t := by
  induction k generalizing t with
  | zero =>
    rw [iterate_zero, Option.some.injEq] at h
    exact h ▸ hs
  | succ k ih =>
    obtain ⟨u, hu, hstep⟩ := iterate_succ_eq_some.mp h
    exact (R.step (ih hu) hstep).1

end Machine
end EasyTcpServer
