import Mathlib.Data.List.Pairwise
import Mathlib.Data.List.TakeWhile
import Mathlib.Data.List.Basic

/-!
# A list kept as a sorted set under a comparator

A skip list ordered by a comparator `cmp` behaves as a sorted set: `get` finds the element equal to
a key, `delete` takes out the elements equal to it and returns them, and `insert` puts the key in
place of the elements equal to it, after the elements below it.  Here the set is the list of its
elements in order.  A comparator need not come from a linear order: it may call two elements equal
for more than one reason, and `insert` and `delete` act on every element it calls equal.
-/

namespace SortedSet

variable {α : Type*} (cmp : α → α → Ordering)

/-- The element equal to `x`, if any. -/
def get (l : List α) (x : α) : Option α := l.find? fun e => cmp e x = .eq

/-- The elements kept and the elements deleted by deleting `x`. -/
def delete (l : List α) (x : α) : List α × List α :=
  (l.filter fun e => cmp e x ≠ .eq, l.filter fun e => cmp e x = .eq)

/-- Insert `x` in place of the elements equal to it, after the elements below it. -/
def insert (l : List α) (x : α) : List α :=
  let kept := (delete cmp l x).1
  kept.takeWhile (fun e => cmp e x = .lt) ++ x :: kept.dropWhile (fun e => cmp e x = .lt)

variable {cmp} {l : List α} {x e : α}

theorem get_eq_some (h : get cmp l x = some e) : e ∈ l ∧ cmp e x = .eq :=
  ⟨List.mem_of_find?_eq_some h, by simpa using List.find?_some h⟩

theorem get_eq_none_iff : get cmp l x = none ↔ ∀ e ∈ l, cmp e x ≠ .eq := by
  simp [get, List.find?_eq_none]

theorem mem_delete_fst : e ∈ (delete cmp l x).1 ↔ e ∈ l ∧ cmp e x ≠ .eq := by
  simp [delete]

/-- Deleting splits the list: every element is kept or deleted. -/
theorem length_delete (l : List α) (x : α) :
    (delete cmp l x).1.length + (delete cmp l x).2.length = l.length := by
  simp only [delete, ne_eq, decide_not]
  rw [List.length_eq_length_filter_add (l := l) (fun e => decide (cmp e x = .eq))]
  exact Nat.add_comm _ _

/-- Nothing is equal to `x`: deleting it keeps the list. -/
theorem delete_of_get_eq_none (h : get cmp l x = none) :
    delete cmp l x = (l, []) := by
  rw [get_eq_none_iff] at h
  simp only [delete, Prod.mk.injEq, List.filter_eq_self, List.filter_eq_nil_iff]
  exact ⟨fun e he => by simpa using h e he, fun e he => by simpa using h e he⟩

theorem delete_fst_sublist (l : List α) (x : α) : (delete cmp l x).1.Sublist l :=
  List.filter_sublist

theorem insert_perm (l : List α) (x : α) : (insert cmp l x).Perm (x :: (delete cmp l x).1) := by
  simp only [insert]
  refine List.perm_middle.trans (List.Perm.cons x ?_)
  rw [List.takeWhile_append_dropWhile]

/-- Inserting a key equal to no element adds it. -/
theorem insert_perm_of_forall_ne (h : ∀ e ∈ l, cmp e x ≠ .eq) : (insert cmp l x).Perm (x :: l) := by
  have hd := delete_of_get_eq_none (get_eq_none_iff.mpr h)
  simpa [hd] using @insert_perm _ cmp l x

/-- Inserting keeps a list sorted by a transitive relation that the comparator refines: the
elements below `x` stay before it and the others after it. -/
theorem pairwise_insert {R : α → α → Prop} (htrans : ∀ a b c, R a b → R b c → R a c)
    (hl : l.Pairwise R) (hlt : ∀ e ∈ l, cmp e x = .lt → R e x)
    (hgt : ∀ e ∈ l, cmp e x = .gt → R x e) : (insert cmp l x).Pairwise R := by
  set kept := (delete cmp l x).1 with hkept
  have hsub : kept.Sublist l := delete_fst_sublist l x
  have hk : kept.Pairwise R := hl.sublist hsub
  have hsplit := List.takeWhile_append_dropWhile (p := fun e => decide (cmp e x = .lt)) (l := kept)
  -- the elements kept are below `x` or above it, none equal
  have hne : ∀ e ∈ kept, cmp e x ≠ .eq := fun e he => (mem_delete_fst.mp he).2
  have hlow : ∀ e ∈ kept.takeWhile (fun e => cmp e x = .lt), R e x := fun e he =>
    hlt e (hsub.subset ((List.takeWhile_sublist _).subset he))
      (by simpa using List.mem_takeWhile_imp he)
  -- the first element not below `x` is above it, and the later ones above that one
  have hhigh : ∀ e ∈ kept.dropWhile (fun e => cmp e x = .lt), R x e := by
    cases hd : kept.dropWhile (fun e => cmp e x = .lt) with
    | nil => simp
    | cons d ds =>
      have hdmem : d ∈ kept := (List.dropWhile_sublist _).subset (by rw [hd]; exact List.mem_cons_self)
      have hdlt : ¬ cmp d x = .lt := by
        have := List.head_dropWhile_not (fun e => decide (cmp e x = .lt)) (l := kept)
          (by rw [hd]; simp)
        simpa [hd] using this
      have hdx : R x d := hgt d (hsub.subset hdmem) (by
        cases h : cmp d x with
        | lt => exact absurd h hdlt
        | eq => exact absurd h (hne d hdmem)
        | gt => rfl)
      have hds : (d :: ds).Pairwise R := by rw [← hd]; exact hk.sublist (List.dropWhile_sublist _)
      intro e he
      rcases List.mem_cons.mp he with rfl | he
      · exact hdx
      · exact htrans _ _ _ hdx (List.rel_of_pairwise_cons hds he)
  have hparts := hsplit ▸ hk
  rw [List.pairwise_append] at hparts
  simp only [insert, ← hkept]
  rw [List.pairwise_append, List.pairwise_cons]
  refine ⟨hparts.1, ⟨hhigh, hparts.2.1⟩, fun a ha b hb => ?_⟩
  rcases List.mem_cons.mp hb with rfl | hb
  · exact hlow a ha
  · exact hparts.2.2 a ha b hb

end SortedSet
