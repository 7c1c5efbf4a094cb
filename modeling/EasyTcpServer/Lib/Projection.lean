import EasyTcpServer.Lib.Machine

/-!
# Projections

A machine of several parts that go on side by side, seen from one of them: a step is a step of
that part or leaves it as it is.  What holds of every run of the part then holds of the part in
every run of the whole.

* `Projection`: the view of a part, and the label of the part's step, if a step is one.
* `Projection.reachWithin`: the view of a state that the whole reaches is reached by the part.
-/

namespace EasyTcpServer
namespace Machine

variable {σ τ ι κ : Type*} (M : Machine σ ι) (N : Machine τ κ)

/-- `N` as a part of `M`. -/
structure Projection where
  /-- What holds of the whole throughout. -/
  Good : σ → Prop
  /-- The part's state. -/
  view : σ → τ
  /-- The part's step; `none` when a step leaves the part alone. -/
  act : σ → ι → Option κ
  good_init : Good M.init
  good_step : ∀ {s t : σ} {i : ι}, Good s → M.step s i = some t → Good t
  view_init : view M.init = N.init
  stay : ∀ {s t : σ} {i : ι}, Good s → M.step s i = some t → act s i = none → view t = view s
  step : ∀ {s t : σ} {i : ι} {k : κ}, Good s → M.step s i = some t → act s i = some k →
    N.step (view s) k = some (view t)

variable {M N} {ok : σ → ι → Prop} {ok' : τ → κ → Prop}

/-- **Seen from a part, a run of the whole is a run of the part.** -/
theorem Projection.reachWithin (P : Projection M N)
    (hok : ∀ s i t k, P.Good s → ok s i → M.step s i = some t → P.act s i = some k →
      ok' (P.view s) k) {s : σ} (h : M.ReachWithin ok s) :
    P.Good s ∧ N.ReachWithin ok' (P.view s) := by
  induction h with
  | init => exact ⟨P.good_init, P.view_init ▸ .init⟩
  | @step s t i _ hi hstep ih =>
    obtain ⟨hgood, hview⟩ := ih
    refine ⟨P.good_step hgood hstep, ?_⟩
    cases hact : P.act s i with
    | none => exact (P.stay hgood hstep hact).symm ▸ hview
    | some k => exact hview.step (hok s i t k hgood hi hstep hact) (P.step hgood hstep hact)

end Machine
end EasyTcpServer
