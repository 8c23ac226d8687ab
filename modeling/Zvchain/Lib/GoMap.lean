import Mathlib.Data.List.AList

/-!
# Go maps as association lists

A Go map is an association list: a lookup, an assignment that replaces the entry of its key, and a
`delete`.  Ranging over a map visits every entry once, in an order the runtime chooses; an
`IterOrder` is such a choice, a reordering of the entries.  For a map whose values are lists,
`flat` lists all the values' elements; it is what a count over the whole map adds up.
-/

namespace GoMap

/-- An order of iteration: each list of entries is visited in some order, every entry once. -/
structure IterOrder (γ : Type*) where
  order : List γ → List γ
  perm : ∀ l, (order l).Perm l

/-- The order in which the entries are stored. -/
def IterOrder.stored {γ : Type*} : IterOrder γ := ⟨id, List.Perm.refl⟩

section Flat

variable {α β : Type*}

/-- The elements of all the values of a map of lists. -/
def flat (s : AList fun _ : α => List β) : List β := s.entries.flatMap (·.2)

@[simp] theorem flat_empty : flat (∅ : AList fun _ : α => List β) = [] := rfl

/-- Ranging over the map in any order visits the elements of `flat`, up to order. -/
theorem flat_order_perm (ord : IterOrder (Σ _ : α, List β)) (s : AList fun _ : α => List β) :
    ((ord.order s.entries).map (·.2)).flatten.Perm (flat s) := by
  rw [← List.flatMap_def]
  exact (ord.perm _).flatMap_right _

variable [DecidableEq α]

/-- Assigning the list at a key replaces the elements it held there. -/
theorem flat_insert (s : AList fun _ : α => List β) (a : α) (l : List β) :
    flat (s.insert a l) = l ++ flat (s.erase a) := by
  simp only [flat, AList.entries_insert, List.flatMap_cons]
  rfl

theorem entries_erase (s : AList fun _ : α => List β) (a : α) :
    (s.erase a).entries = s.entries.kerase a := rfl

/-- The elements of a map are those at one key and those of the map without it. -/
theorem flat_perm (s : AList fun _ : α => List β) (a : α) :
    (flat s).Perm ((s.lookup a).getD [] ++ flat (s.erase a)) := by
  by_cases ha : a ∈ s
  · obtain ⟨b, l₁, l₂, -, hs, hk⟩ := List.exists_of_kerase ha
    have hlookup : s.lookup a = some b := by
      rw [← Option.mem_def, AList.mem_lookup_iff, hs]
      simp
    -- the entry of `a` moves to the front
    rw [hlookup, Option.getD_some, flat, flat, entries_erase, hk, hs]
    simp only [List.flatMap_append, List.flatMap_cons]
    exact List.perm_append_comm_assoc _ _ _
  · rw [AList.lookup_eq_none.mpr ha, Option.getD_none, List.nil_append, flat, flat, entries_erase,
      List.kerase_of_notMem_keys ha]

theorem mem_flat {s : AList fun _ : α => List β} {x : β} :
    x ∈ flat s ↔ ∃ a l, s.lookup a = some l ∧ x ∈ l := by
  simp only [flat, List.mem_flatMap]
  constructor
  · rintro ⟨⟨a, l⟩, he, hx⟩
    exact ⟨a, l, AList.mem_lookup_iff.mpr he, hx⟩
  · rintro ⟨a, l, hl, hx⟩
    exact ⟨⟨a, l⟩, AList.mem_lookup_iff.mp hl, hx⟩

end Flat

section Lookup

variable {α γ : Type*} [DecidableEq α] {s : AList fun _ : α => γ} {a h : α} {w : γ}

theorem lookup_erase_eq_some : (s.erase a).lookup h = some w ↔ h ≠ a ∧ s.lookup h = some w := by
  by_cases hha : h = a
  · subst hha
    simp
  · rw [AList.lookup_erase_ne hha]
    exact ⟨fun hw => ⟨hha, hw⟩, fun hw => hw.2⟩

theorem lookup_erase_eq_none_of (hs : s.lookup h = none) : (s.erase a).lookup h = none := by
  by_cases hha : h = a
  · subst hha
    exact AList.lookup_erase _ _
  · rw [AList.lookup_erase_ne hha, hs]

theorem lookup_insert_eq_some {b : γ} :
    (s.insert a b).lookup h = some w ↔ (h = a ∧ b = w) ∨ (h ≠ a ∧ s.lookup h = some w) := by
  by_cases hha : h = a
  · subst hha
    simp
  · rw [AList.lookup_insert_ne hha]
    simp [hha]

/-- Assigning a key the map did not hold and deleting it again leaves the map's lookups. -/
theorem lookup_erase_insert_of_none {b : γ} (hs : s.lookup a = none) (h : α) :
    ((s.insert a b).erase a).lookup h = s.lookup h := by
  by_cases hha : h = a
  · subst hha
    rw [AList.lookup_erase, hs]
  · rw [AList.lookup_erase_ne hha, AList.lookup_insert_ne hha]

end Lookup

/-! ## The size of a map

`len(m)` is the number of entries; a `delete` of a key present takes one off, and an assignment
adds one at most. -/

section Size

variable {α : Type*} {β : α → Type*} [DecidableEq α]

theorem length_erase_le (s : AList β) (a : α) : (s.erase a).entries.length ≤ s.entries.length := by
  show (s.entries.kerase a).length ≤ _
  unfold List.kerase
  exact List.length_eraseP_le

theorem length_erase_of_mem {s : AList β} {a : α} (h : a ∈ s) :
    (s.erase a).entries.length + 1 = s.entries.length := by
  show (s.entries.kerase a).length + 1 = _
  unfold List.kerase
  rw [List.length_eraseP]
  rw [AList.mem_keys, AList.keys, List.mem_keys] at h
  obtain ⟨b, hb⟩ := h
  have hany : s.entries.any (fun s => decide (a = s.1)) = true :=
    List.any_eq_true.mpr ⟨_, hb, by simp⟩
  rw [if_pos hany]
  have := List.length_pos_of_mem hb
  omega

theorem length_insert_le (s : AList β) (a : α) (b : β a) :
    (s.insert a b).entries.length ≤ s.entries.length + 1 := by
  rw [AList.entries_insert, List.length_cons]
  exact Nat.add_le_add_right (length_erase_le s a) 1

end Size

end GoMap
