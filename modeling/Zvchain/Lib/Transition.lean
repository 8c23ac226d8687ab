import Mathlib

/-!
# Reachable states of a transition system

A system is given by a predicate on its initial states and a step relation.  A property holds of
every reachable state once the initial states have it and every step keeps it
(`Reachable.induction`).  An invariant that needs a bound on the length of the run is proved over
`ReachableIn`, the states reached in exactly `n` steps.
-/

namespace Transition

variable {σ : Type*}

/-- The states reachable from a state satisfying `init` by finitely many `step`s. -/
inductive Reachable (init : σ → Prop) (step : σ → σ → Prop) : σ → Prop
  | init {s : σ} : init s → Reachable init step s
  | step {s s' : σ} : Reachable init step s → step s s' → Reachable init step s'

namespace Reachable

variable {init : σ → Prop} {step : σ → σ → Prop}

/-- The invariance rule: what the initial states have and every step keeps, every reachable state
has. -/
theorem induction {P : σ → Prop} (h0 : ∀ s, init s → P s)
    (hs : ∀ s s', P s → step s s' → P s') {s : σ} (h : Reachable init step s) : P s := by
  induction h with
  | init hi => exact h0 _ hi
  | step _ hst ih => exact hs _ _ ih hst

/-- A step from a reachable state reaches a reachable state. -/
theorem of_step {s s' : σ} (h : Reachable init step s) (hst : step s s') :
    Reachable init step s' :=
  Reachable.step h hst

end Reachable

/-- The states reachable from a state satisfying `init` in exactly `n` steps. -/
inductive ReachableIn (init : σ → Prop) (step : σ → σ → Prop) : ℕ → σ → Prop
  | init {s : σ} : init s → ReachableIn init step 0 s
  | step {n : ℕ} {s s' : σ} : ReachableIn init step n s → step s s' →
      ReachableIn init step (n + 1) s'

variable {init : σ → Prop} {step : σ → σ → Prop}

/-- The invariance rule with the length of the run: what the initial states have at `0` and
every step keeps from `n` to `n + 1`, every state reached in `n` steps has at `n`. -/
theorem ReachableIn.induction {P : ℕ → σ → Prop} (h0 : ∀ s, init s → P 0 s)
    (hs : ∀ n s s', P n s → step s s' → P (n + 1) s') {n : ℕ} {s : σ}
    (h : ReachableIn init step n s) : P n s := by
  induction h with
  | init hi => exact h0 _ hi
  | step _ hst ih => exact hs _ _ _ ih hst

end Transition
