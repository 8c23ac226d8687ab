import Mathlib

/-!
# Loops over a list that may stop early

`loopWhile f l s` runs the body `f` on the elements of `l` in turn from the state `s`; the body
returns the next state and whether to go on, as a Go `for` loop whose body may `break`.  The
body `collect keep cont` appends the elements that `keep` holds of and goes on while `cont`
holds; when `keep` implies `cont`, the loop collects `keep` over the longest prefix on which
`cont` holds (`loopWhile_collect`).  That prefix is the filter by `cont` when `cont`, once false
along the list, stays false (`takeWhile_eq_filter_of_pairwise`), so the early exit then misses
nothing (`loopWhile_collect_of_pairwise`).
-/

namespace ListLoop

variable {α σ : Type*}

/-- A loop over `l` from the state `s` whose body may stop it. -/
def loopWhile (f : α → σ → σ × Bool) : List α → σ → σ
  | [], s => s
  | a :: l, s => if (f a s).2 then loopWhile f l (f a s).1 else (f a s).1

@[simp] theorem loopWhile_nil (f : α → σ → σ × Bool) (s : σ) : loopWhile f [] s = s := rfl

theorem loopWhile_cons (f : α → σ → σ × Bool) (a : α) (l : List α) (s : σ) :
    loopWhile f (a :: l) s = if (f a s).2 then loopWhile f l (f a s).1 else (f a s).1 := rfl

/-- The body that appends `a` when `keep a` and goes on when `cont a`. -/
def collect (keep cont : α → Bool) (a : α) (acc : List α) : List α × Bool :=
  (if keep a then acc ++ [a] else acc, cont a)

variable {keep cont : α → Bool}

/-- Collecting stops at the first element `cont` fails on; that element is not kept when `keep`
implies `cont`. -/
theorem loopWhile_collect (hk : ∀ a, keep a → cont a) (l : List α) (acc : List α) :
    loopWhile (collect keep cont) l acc = acc ++ (l.takeWhile cont).filter keep := by
  induction l generalizing acc with
  | nil => simp
  | cons a l ih =>
    rw [loopWhile_cons]
    by_cases hc : cont a
    · simp only [collect, hc, if_true, List.takeWhile_cons_of_pos, ih]
      by_cases hka : keep a
      · simp [hka]
      · simp [hka]
    · have hka : keep a = false := by
        by_contra hka
        exact hc (hk a (by simpa using hka))
      simp [collect, hc, hka]

/-- When `p`, once false along the list, stays false, the longest prefix on which `p` holds is
the filter by `p`. -/
theorem takeWhile_eq_filter_of_pairwise {p : α → Bool} {l : List α}
    (h : l.Pairwise fun a b => p b → p a) : l.takeWhile p = l.filter p := by
  induction l with
  | nil => rfl
  | cons a l ih =>
    have ih := ih (List.pairwise_cons.mp h).2
    by_cases hp : p a
    · rw [List.takeWhile_cons_of_pos hp, List.filter_cons_of_pos hp, ih]
    · -- nothing after an element `p` fails on satisfies `p`
      have hnone : l.filter p = [] := List.filter_eq_nil_iff.mpr fun b hb hpb =>
        hp ((List.pairwise_cons.mp h).1 b hb hpb)
      rw [List.takeWhile_cons_of_neg hp, List.filter_cons_of_neg hp, hnone]

/-- Collecting with an early exit at the first element `cont` fails on collects every element
`keep` holds of, when `cont`, once false along the list, stays false. -/
theorem loopWhile_collect_of_pairwise (hk : ∀ a, keep a → cont a)
    {l : List α} (h : l.Pairwise fun a b => cont b → cont a) (acc : List α) :
    loopWhile (collect keep cont) l acc = acc ++ l.filter keep := by
  rw [loopWhile_collect hk, takeWhile_eq_filter_of_pairwise h, List.filter_filter]
  congr 2
  funext a
  by_cases hka : keep a
  · simp [hka, hk a hka]
  · simp [hka]

end ListLoop
