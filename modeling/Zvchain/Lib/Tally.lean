import Mathlib

/-!
# Tallies of ballots

Each voter holds at most one ballot, for one target (`ballot : α → Option β`).  A tally counts,
for each target that `P` admits, the voters whose ballot is for it, out of finitely many holders
(`Counts`).  Casting a ballot raises one count by one and withdrawing one lowers one count by one
(`Counts.cast`, `Counts.withdraw`); moving a ballot is a withdrawal followed by a cast.  A counter
kept beside the ballots is proved to count them by showing that each change of the ballots is
one of these, with the same change of the counter.
-/

namespace Tally

variable {α β : Type*}

/-- The voters whose ballot is for `t`. -/
def voters (ballot : α → Option β) (t : β) : Set α := {g | ballot g = some t}

/-- The voters that hold a ballot. -/
def holders (ballot : α → Option β) : Set α := {g | (ballot g).isSome}

@[simp] theorem mem_voters {ballot : α → Option β} {t : β} {g : α} :
    g ∈ voters ballot t ↔ ballot g = some t := Iff.rfl

@[simp] theorem mem_holders {ballot : α → Option β} {g : α} :
    g ∈ holders ballot ↔ (ballot g).isSome := Iff.rfl

theorem voters_subset_holders (ballot : α → Option β) (t : β) :
    voters ballot t ⊆ holders ballot := by
  intro g hg
  rw [mem_voters] at hg
  simp [hg]

/-- `tally` counts the ballots for each target that `P` admits, and finitely many voters hold a
ballot. -/
structure Counts (P : β → Prop) (tally : β → ℕ) (ballot : α → Option β) : Prop where
  finite : (holders ballot).Finite
  count : ∀ t, P t → tally t = (voters ballot t).ncard

/-- No ballot, no count. -/
theorem counts_none (P : β → Prop) : Counts P (fun _ => 0) (fun _ : α => (none : Option β)) where
  finite := by simp [holders]
  count t _ := by simp [voters]

variable {P : β → Prop} {tally tally' : β → ℕ} {ballot : α → Option β}

/-- A tally that agrees on the admitted targets counts the same ballots. -/
theorem Counts.congr (h : Counts P tally ballot) (heq : ∀ t, P t → tally' t = tally t) :
    Counts P tally' ballot where
  finite := h.finite
  count t ht := by rw [heq t ht, h.count t ht]

/-- A count is at most the number of holders. -/
theorem Counts.count_le (h : Counts P tally ballot) {t : β} (ht : P t) :
    tally t ≤ (holders ballot).ncard := by
  rw [h.count t ht]
  exact Set.ncard_le_ncard (voters_subset_holders ballot t) h.finite

/-- A target that `P` admits and somebody votes for has a positive count. -/
theorem Counts.pos (h : Counts P tally ballot) {t : β} (ht : P t) {g : α}
    (hg : ballot g = some t) : 0 < tally t := by
  rw [h.count t ht]
  exact (Set.ncard_pos ((h.finite.subset (voters_subset_holders ballot t)))).mpr ⟨g, hg⟩

variable [DecidableEq α] {g : α}

theorem voters_update_of_ne {b : Option β} {t : β} (hb : b ≠ some t) :
    voters (Function.update ballot g b) t = voters ballot t \ {g} := by
  ext a
  by_cases ha : a = g
  · subst ha
    simp [hb]
  · simp [ha]

theorem voters_update_some (t : β) :
    voters (Function.update ballot g (some t)) t = insert g (voters ballot t) := by
  ext a
  by_cases ha : a = g <;> simp [ha]

theorem holders_update_none : holders (Function.update ballot g none) = holders ballot \ {g} := by
  ext a
  by_cases ha : a = g <;> simp [ha]

theorem holders_update_some (t : β) :
    holders (Function.update ballot g (some t)) = insert g (holders ballot) := by
  ext a
  by_cases ha : a = g <;> simp [ha]

/-- Withdrawing a ballot leaves no more holders. -/
theorem ncard_holders_update_none_le (h : (holders ballot).Finite) :
    (holders (Function.update ballot g none)).ncard ≤ (holders ballot).ncard := by
  rw [holders_update_none]
  exact Set.ncard_le_ncard Set.sdiff_subset h

/-- Casting a ballot adds at most one holder. -/
theorem ncard_holders_update_some_le (t : β) :
    (holders (Function.update ballot g (some t))).ncard ≤ (holders ballot).ncard + 1 := by
  rw [holders_update_some]
  exact Set.ncard_insert_le g _

variable [DecidableEq β]

/-- Withdrawing the ballot of `g`, which is for `o`: the count of `o` falls by one. -/
theorem Counts.withdraw {o : β} (h : Counts P tally ballot) (hg : ballot g = some o) :
    Counts P (Function.update tally o (tally o - 1)) (Function.update ballot g none) where
  finite := by
    rw [holders_update_none]
    exact h.finite.sdiff
  count t ht := by
    rw [voters_update_of_ne (Option.some_ne_none t).symm]
    by_cases hto : t = o
    · subst hto
      have hgt : g ∈ voters ballot t := hg
      rw [Function.update_self, Set.ncard_sdiff_singleton_of_mem hgt, h.count t ht]
    · have hgt : g ∉ voters ballot t := by
        rw [mem_voters, hg]
        exact fun he => hto (Option.some_injective β he).symm
      rw [Function.update_of_ne hto, Set.sdiff_singleton_eq_self hgt, h.count t ht]

/-- Casting a ballot for `t` where `g` holds none: the count of `t` rises by one. -/
theorem Counts.cast (t : β) (h : Counts P tally ballot) (hg : ballot g = none) :
    Counts P (Function.update tally t (tally t + 1)) (Function.update ballot g (some t)) where
  finite := by
    rw [holders_update_some]
    exact h.finite.insert g
  count u hu := by
    by_cases hut : u = t
    · subst hut
      have hfin : (voters ballot u).Finite := h.finite.subset (voters_subset_holders ballot u)
      have hgu : g ∉ voters ballot u := by simp [hg]
      rw [voters_update_some, Set.ncard_insert_of_notMem hgu hfin, Function.update_self,
        h.count u hu]
    · have hne : some t ≠ some u := fun he => hut (Option.some_injective β he).symm
      have hgu : g ∉ voters ballot u := by simp [hg]
      rw [voters_update_of_ne hne, Set.sdiff_singleton_eq_self hgu, Function.update_of_ne hut,
        h.count u hu]

end Tally
