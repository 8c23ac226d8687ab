import Mathlib

/-!
# Triples over `EStateM` and what they say about a run

A procedure over a state with exceptions is an `EStateM ε σ α`.  Its specifications are `Std.Do`
triples, proved with `mvcgen`; the facts below read a triple back as a statement about
`EStateM.run`, which is how a step relation over the state is stated.
-/

set_option mvcgen.warning false

namespace StateProc

open Std.Do

variable {ε σ α : Type}

/-- The weakest precondition of an `EStateM` procedure is its postcondition at the result of
the run. -/
theorem wp_apply (x : EStateM ε σ α) (Q : PostCond α (.except ε (.arg σ .pure))) (s : σ) :
    wp⟦x⟧ Q s = match x.run s with
      | .ok a s' => Q.1 a s'
      | .error e s' => Q.2.1 e s' := by
  cases h : x.run s <;> simp only [WP.wp, PredTrans.apply, h]

variable {x : EStateM ε σ α} {P : σ → Prop} {Q : α → σ → Prop} {E : ε → σ → Prop}

/-- A run that returns satisfies the postcondition. -/
theorem ok_of_triple
    (h : ⦃fun s => ⌜P s⌝⦄ x ⦃post⟨fun a s => ⌜Q a s⌝, fun e s => ⌜E e s⌝⟩⦄)
    {s s' : σ} {a : α} (hP : P s) (hr : x.run s = .ok a s') : Q a s' := by
  have hw := h s hP
  rw [wp_apply, hr] at hw
  exact hw

/-- A procedure whose specification rules out returning throws, with the exception its
specification allows. -/
theorem error_of_triple_not_ok
    (h : ⦃fun s => ⌜P s⌝⦄ x ⦃post⟨fun _ _ => ⌜False⌝, fun e s => ⌜E e s⌝⟩⦄) {s : σ}
    (hP : P s) : ∃ e s', x.run s = .error e s' ∧ E e s' := by
  have hw := h s hP
  rw [wp_apply] at hw
  cases hr : x.run s with
  | ok a s' => rw [hr] at hw; exact hw.elim
  | error e s' => rw [hr] at hw; exact ⟨e, s', rfl, hw⟩

/-- The state a run ends in, whether it returns or throws. -/
def stateOf : EStateM.Result ε σ α → σ
  | .ok _ s => s
  | .error _ s => s

/-- The invariant rule of a loop over a list: rounds that each keep `I` when they return, and
end in `E` when they throw, make a loop that does the same. -/
theorem forM_spec {β : Type} {I : σ → Prop} {E : ε → σ → Prop} {g : β → EStateM ε σ PUnit} :
    ∀ xs : List β,
      (∀ b ∈ xs, ⦃fun s => ⌜I s⌝⦄ g b ⦃post⟨fun _ s => ⌜I s⌝, fun e s => ⌜E e s⌝⟩⦄) →
      ⦃fun s => ⌜I s⌝⦄ xs.forM g ⦃post⟨fun _ s => ⌜I s⌝, fun e s => ⌜E e s⌝⟩⦄
  | [], _ => by
    rw [List.forM_eq_forM, List.forM_nil]
    mvcgen
  | b :: bs, h => by
    have hb := h b List.mem_cons_self
    have ih := forM_spec bs fun b' hb' => h b' (List.mem_cons_of_mem b hb')
    rw [List.forM_eq_forM, List.forM_cons, ← List.forM_eq_forM]
    mvcgen [hb, ih]

end StateProc
