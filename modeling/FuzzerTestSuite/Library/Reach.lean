import Mathlib.Init

/-! Reachable states of a system that also combines states.

Besides the usual steps from one state to the next, a state may be made from two
reachable ones. An invariant of such a system holds initially, survives a step,
and survives combining two states that both have it. -/
namespace Library

/-- The states reached from `init` by `step` and by `combine`. -/
inductive Reach {σ : Type} (init : σ → Prop) (step : σ → σ → Prop) (combine : σ → σ → σ → Prop) :
    σ → Prop where
  | init {s} : init s → Reach init step combine s
  | step {s t} : Reach init step combine s → step s t → Reach init step combine t
  | combine {s t u} : Reach init step combine s → Reach init step combine t → combine s t u →
      Reach init step combine u

namespace Reach
variable {σ : Type} {init : σ → Prop} {step : σ → σ → Prop} {combine : σ → σ → σ → Prop}

theorem invariant (I : σ → Prop) (hinit : ∀ s, init s → I s)
    (hstep : ∀ s t, I s → step s t → I t)
    (hcombine : ∀ s t u, I s → I t → combine s t u → I u) {s : σ}
    (h : Reach init step combine s) : I s := by
  induction h with
  | init hs => exact hinit _ hs
  | step _ hst ih => exact hstep _ _ ih hst
  | combine _ _ hstu ihs iht => exact hcombine _ _ _ ihs iht hstu

end Reach

end Library
