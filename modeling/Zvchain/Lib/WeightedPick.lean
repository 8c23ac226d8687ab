import Mathlib

/-!
# Picking by weight

`pick w r l` walks `l` keeping the sum of the weights `w` before the current element, and takes
out the first element whose interval `[sum before it, sum before it + w a)` holds `r`
(`pick_spec`): the element a stake-weighted draw of `r` falls on.  When `r` is below the total
weight an element is picked (`pick_isSome`); it has a positive weight, and what is left is the
rest of the list (`perm_of_pick`), whose total weight is the old one less that of the picked
element (`sum_of_pick`).
-/

namespace WeightedPick

variable {α : Type*} (w : α → ℕ)

/-- The element whose interval holds `r`, taken out of the list. -/
def pick (r : ℕ) : List α → Option (α × List α)
  | [] => none
  | a :: l => if r < w a then some (a, l) else (pick (r - w a) l).map fun p => (p.1, a :: p.2)

@[simp] theorem pick_nil (r : ℕ) : pick w r [] = none := rfl

theorem pick_cons (r : ℕ) (a : α) (l : List α) :
    pick w r (a :: l) =
      if r < w a then some (a, l) else (pick w (r - w a) l).map fun p => (p.1, a :: p.2) :=
  rfl

variable {w}

/-- The picked element is the one whose interval holds `r`: the weights before it sum to at most
`r`, and with its own to more. -/
theorem pick_spec {r : ℕ} {l : List α} {a : α} {l' : List α} (h : pick w r l = some (a, l')) :
    ∃ pre post, l = pre ++ a :: post ∧ l' = pre ++ post ∧
      (pre.map w).sum ≤ r ∧ r < (pre.map w).sum + w a := by
  induction l generalizing r l' with
  | nil => cases h
  | cons b l ih =>
    rw [pick_cons] at h
    split_ifs at h with hr
    · cases h
      exact ⟨[], l, rfl, rfl, by simp, by simpa using hr⟩
    · -- the interval of `b` is below `r`: the pick is in the rest, shifted by `w b`
      obtain ⟨⟨a', l''⟩, hp, he⟩ := Option.map_eq_some_iff.mp h
      simp only [Prod.mk.injEq] at he
      obtain ⟨rfl, rfl⟩ := he
      obtain ⟨pre, post, rfl, rfl, hle, hlt⟩ := ih hp
      refine ⟨b :: pre, post, rfl, rfl, ?_, ?_⟩
      · simp only [List.map_cons, List.sum_cons]
        omega
      · simp only [List.map_cons, List.sum_cons]
        omega

/-- A draw below the total weight picks an element. -/
theorem pick_isSome {r : ℕ} {l : List α} (h : r < (l.map w).sum) :
    ∃ a l', pick w r l = some (a, l') := by
  induction l generalizing r with
  | nil => simp at h
  | cons b l ih =>
    rw [pick_cons]
    by_cases hr : r < w b
    · exact ⟨b, l, if_pos hr⟩
    · rw [if_neg hr]
      have hrest : r - w b < (l.map w).sum := by
        simp only [List.map_cons, List.sum_cons] at h
        omega
      obtain ⟨a, l', hp⟩ := ih hrest
      exact ⟨a, b :: l', by rw [hp]; rfl⟩

theorem perm_of_pick {r : ℕ} {l : List α} {a : α} {l' : List α} (h : pick w r l = some (a, l')) :
    (a :: l').Perm l := by
  obtain ⟨pre, post, rfl, rfl, -, -⟩ := pick_spec h
  exact List.perm_middle.symm

theorem sum_of_pick {r : ℕ} {l : List α} {a : α} {l' : List α} (h : pick w r l = some (a, l')) :
    (l'.map w).sum + w a = (l.map w).sum := by
  have hsum := ((perm_of_pick h).map w).sum_eq
  simp only [List.map_cons, List.sum_cons] at hsum
  omega

end WeightedPick
