import Mathlib.Data.List.Induction
import Mathlib.Data.List.Nodup

/-!
# Protocols over a log

A log records events, each about one of many things that are handled side by side.  A
protocol says in what order the events about one thing may come, by a partial automaton.
Where a thing stands is found by running the automaton over the events about it.

## What is provided

* `phase`: where a thing stands after a log, and its equations for an event about it, for
  events about other things, and for one event about each of several things.
* `phase_induction`: what the automaton keeps of the events about a thing holds of every log
  that follows the protocol.
-/

namespace EasyTcpServer

/-- The order in which events about one thing may come. -/
structure Protocol (κ ε φ : Type*) where
  /-- What an event is about. -/
  about : ε → κ
  /-- Where a thing stands before its first event. -/
  start : φ
  /-- Where an event leads to; `none` when it may not come there. -/
  next : φ → ε → Option φ

namespace Protocol

variable {κ ε φ : Type*} [DecidableEq κ] (P : Protocol κ ε φ)

/-- The events of a log that are about `k`. -/
def history (k : κ) (log : List ε) : List ε := log.filter fun e => P.about e = k

/-- Where `k` stands after a log. -/
def phase (k : κ) (log : List ε) : Option φ := (P.history k log).foldlM P.next P.start

@[simp] theorem history_nil (k : κ) : P.history k [] = [] := rfl

theorem history_append (k : κ) (log log' : List ε) :
    P.history k (log ++ log') = P.history k log ++ P.history k log' :=
  List.filter_append _ _

variable {P} {k : κ} {log log' : List ε} {e : ε}

theorem history_eq_nil (h : ∀ e ∈ log, P.about e ≠ k) : P.history k log = [] := by
  rw [history, List.filter_eq_nil_iff]
  intro e he
  simpa using h e he

theorem phase_append :
    P.phase k (log ++ log') =
      (P.phase k log).bind fun p => (P.history k log').foldlM P.next p := by
  rw [phase, history_append, List.foldlM_append]
  rfl

/-- Events about other things do not matter. -/
theorem phase_append_of_ne (h : ∀ e ∈ log', P.about e ≠ k) :
    P.phase k (log ++ log') = P.phase k log := by
  rw [phase, history_append, history_eq_nil h, List.append_nil, phase]

/-- One event about the thing. -/
theorem phase_append_singleton (h : P.about e = k) :
    P.phase k (log ++ [e]) = (P.phase k log).bind (P.next · e) := by
  rw [phase_append]
  refine congrArg _ (funext fun p => ?_)
  rw [history, List.filter_cons_of_pos (by simpa using h), List.filter_nil]
  exact bind_pure (P.next p e)

/-- Events about the thing that leave it where it stands. -/
theorem phase_append_of_stay {p : φ} (hp : P.phase k log = some p)
    (hstay : ∀ e ∈ log', P.about e = k → P.next p e = some p) :
    P.phase k (log ++ log') = some p := by
  induction log' generalizing log with
  | nil => rwa [List.append_nil]
  | cons e es ih =>
    rw [List.append_cons]
    refine ih ?_ fun e' he' => hstay e' (List.mem_cons_of_mem _ he')
    by_cases he : P.about e = k
    · rw [phase_append_singleton he, hp]
      exact hstay e List.mem_cons_self he
    · rw [phase_append_of_ne (by simpa using he), hp]

/-- One event about each of several things. -/
theorem phase_append_map {f : κ → ε} (hf : ∀ k, P.about (f k) = k) {ks : List κ}
    (hnodup : ks.Nodup) (k : κ) :
    P.phase k (log ++ ks.map f) =
      if k ∈ ks then (P.phase k log).bind (P.next · (f k)) else P.phase k log := by
  induction ks generalizing log with
  | nil => simp
  | cons j js ih =>
    obtain ⟨hj, hjs⟩ := List.nodup_cons.mp hnodup
    rw [List.map_cons, List.append_cons, ih hjs]
    by_cases hkj : k = j
    · subst hkj
      rw [if_neg hj, if_pos List.mem_cons_self, phase_append_singleton (hf k)]
    · have hother : P.phase k (log ++ [f j]) = P.phase k log :=
        phase_append_of_ne (by simpa [hf] using Ne.symm hkj)
      simp only [hother, List.mem_cons, hkj, false_or]

/-- **The induction over the events about a thing.** -/
theorem phase_induction {I : φ → List ε → Prop} (hstart : I P.start [])
    (hnext : ∀ p q es e, P.about e = k → I p es → P.next p e = some q → I q (es ++ [e]))
    {p : φ} (h : P.phase k log = some p) : I p (P.history k log) := by
  induction log using List.reverseRecOn generalizing p with
  | nil =>
    obtain rfl : P.start = p := Option.some.inj h
    exact hstart
  | append_singleton log e ih =>
    rw [history_append]
    by_cases he : P.about e = k
    · rw [phase_append_singleton he, Option.bind_eq_some_iff] at h
      obtain ⟨q, hq, hnext'⟩ := h
      have hlast : P.history k [e] = [e] := by simp [history, he]
      rw [hlast]
      exact hnext q p _ e he (ih hq) hnext'
    · have hnone : ∀ e' ∈ [e], P.about e' ≠ k := by simpa using he
      rw [phase_append_of_ne hnone] at h
      rw [history_eq_nil hnone, List.append_nil]
      exact ih h

end Protocol
end EasyTcpServer
