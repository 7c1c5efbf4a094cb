import EasyTcpServer.Lib.Machine
import Mathlib.Algebra.BigOperators.Group.List.Basic
import Mathlib.Algebra.GroupWithZero.Nat

/-!
# Potentials

How long a job of a concurrent program can take.  Some steps bring the job forward, others do
nothing for it, and others again give it more to do.  A potential is lowered by the first, left
as it is by the second, and raised by no more than what the third add.

* `total` is the sum of a quantity over the steps of a run, and `StaysIn` says what is so before
  each of its steps.
* `add_total_le`: what the steps of a run take from the potential is no more than what was there
  and what the steps have added.
* `exists_run_of_rank`: when some step brings the job forward wherever it is, there is a run to
  its end.
-/

namespace EasyTcpServer
namespace Machine

variable {σ ι : Type*} (M : Machine σ ι)

/-- The sum of `f` over the steps of a run. -/
def total (f : σ → ι → ℕ) : σ → List ι → ℕ
  | _, [] => 0
  | s, i :: is => f s i + (M.step s i).elim 0 fun t => total f t is

/-- Each step of the run meets `P`, a condition on the state before the step and the label. -/
def StaysIn (P : σ → ι → Prop) : σ → List ι → Prop
  | _, [] => True
  | s, i :: is => P s i ∧ ∀ t, M.step s i = some t → StaysIn P t is

variable {M} {f : σ → ι → ℕ} {P : σ → ι → Prop} {s t : σ} {i : ι} {is : List ι}

/-- Each label of such a run is one that the condition allows. -/
theorem StaysIn.of_mem (h : M.StaysIn P s is) (hrun : M.run s is = some t) (hi : i ∈ is) :
    ∃ u, P u i := by
  induction is generalizing s with
  | nil => exact absurd hi List.not_mem_nil
  | cons j is ih =>
    obtain ⟨u, hu, hrun⟩ := Option.bind_eq_some_iff.mp hrun
    rcases List.mem_cons.mp hi with rfl | hi
    · exact ⟨s, h.1⟩
    · exact ih (h.2 u hu) hrun hi

/-- A run of allowed steps goes on from a state that is reached by allowed steps. -/
theorem ReachWithin.of_staysIn (h : M.ReachWithin P s) (hstay : M.StaysIn P s is)
    (hrun : M.run s is = some t) : M.ReachWithin P t := by
  induction is generalizing s with
  | nil =>
    obtain rfl : s = t := Option.some.inj hrun
    exact h
  | cons i is ih =>
    obtain ⟨u, hu, hrun⟩ := Option.bind_eq_some_iff.mp hrun
    exact ih (h.step hstay.1 hu) (hstay.2 u hu) hrun

theorem StaysIn.mono {P' : σ → ι → Prop} (h : M.StaysIn P s is) (hP : ∀ s i, P s i → P' s i) :
    M.StaysIn P' s is := by
  induction is generalizing s with
  | nil => trivial
  | cons i is ih => exact ⟨hP s i h.1, fun t ht => ih (h.2 t ht)⟩

theorem total_cons (h : M.step s i = some t) :
    M.total f s (i :: is) = f s i + M.total f t is := by
  rw [total, h, Option.elim_some]

theorem StaysIn.cons (hi : P s i) (h : M.step s i = some t) (his : M.StaysIn P t is) :
    M.StaysIn P s (i :: is) := by
  refine ⟨hi, fun u hu => ?_⟩
  obtain rfl : t = u := Option.some.inj (h.symm.trans hu)
  exact his

/-- A quantity of the label alone. -/
theorem total_label (g : ι → ℕ) (h : M.run s is = some t) :
    M.total (fun _ i => g i) s is = (is.map g).sum := by
  induction is generalizing s with
  | nil => rfl
  | cons i is ih =>
    obtain ⟨u, hu, hrun⟩ := Option.bind_eq_some_iff.mp h
    rw [total_cons hu, ih hrun, List.map_cons, List.sum_cons]

theorem sum_map_one (is : List ι) : (is.map fun _ => 1).sum = is.length := by
  induction is with
  | nil => rfl
  | cons i is ih => rw [List.map_cons, List.sum_cons, ih, List.length_cons, Nat.add_comm]

theorem sum_map_count [DecidableEq ι] (c : ℕ) (k : ι) (is : List ι) :
    (is.map fun i => if i = k then c else 0).sum = c * is.count k := by
  induction is with
  | nil => rfl
  | cons i is ih =>
    rw [List.map_cons, List.sum_cons, ih, List.count_cons]
    by_cases hi : i = k
    · simp only [hi, if_true, beq_self_eq_true, Nat.mul_add, Nat.mul_one, Nat.add_comm]
    · simp only [hi, if_false, beq_iff_eq, Nat.zero_add, Nat.add_zero]

/-- **The potential rule.**  What the steps of a run take from the potential is no more than what
was there and what they add. -/
theorem add_total_le {I : σ → Prop} {Φ : σ → ℕ} {paid gain : σ → ι → ℕ}
    (hkeep : ∀ s i t, I s → P s i → M.step s i = some t → I t)
    (hstep : ∀ s i t, I s → P s i → M.step s i = some t → Φ t + paid s i ≤ Φ s + gain s i)
    (hs : I s) (hstay : M.StaysIn P s is) (hrun : M.run s is = some t) :
    Φ t + M.total paid s is ≤ Φ s + M.total gain s is := by
  induction is generalizing s with
  | nil =>
    obtain rfl : s = t := Option.some.inj hrun
    exact Nat.le_refl _
  | cons i is ih =>
    obtain ⟨u, hu, hrun⟩ := Option.bind_eq_some_iff.mp hrun
    have hone := hstep s i u hs hstay.1 hu
    have hrest := ih (hkeep s i u hs hstay.1 hu) (hstay.2 u hu) hrun
    rw [total_cons hu, total_cons hu]
    omega

/-- **The progress rule for many labels.**  When in every state of `I` that is not in `Q` some
step lowers a rank, and stays in `I`, there is a run to `Q` by such steps. -/
theorem exists_run_of_rank {I Q : σ → Prop} (rank : σ → ℕ)
    (hstep : ∀ s, I s → ¬ Q s → ∃ i t, P s i ∧ M.step s i = some t ∧ I t ∧ rank t < rank s)
    (hs : I s) : ∃ is t, M.StaysIn P s is ∧ M.run s is = some t ∧ I t ∧ Q t := by
  induction hn : rank s using Nat.strongRecOn generalizing s with
  | _ n ih =>
    by_cases hq : Q s
    · exact ⟨[], s, trivial, rfl, hs, hq⟩
    · obtain ⟨i, t, hi, ht, hit, hlt⟩ := hstep s hs hq
      obtain ⟨is, u, hstay, hrun, hiu, hqu⟩ := ih (rank t) (hn ▸ hlt) hit rfl
      refine ⟨i :: is, u, hstay.cons hi ht, ?_, hiu, hqu⟩
      rw [run_cons, ht, Option.bind_some, hrun]

end Machine
end EasyTcpServer
