import Mathlib

/-!
# Stores as relations, and writes to them

A store that maps each key to at most one value is read as a relation `e k v`: the store maps
`k` to `v`.  A write of `v` at `k` gives the relation that maps `k` to `v` and every other key as
`e` does (`overwrite`).  After a sequence of writes a key is mapped to the value of the last
write to it, or as before when no write was to it (`writeAll_iff`).

Two stores agree on a set of keys when `Set.EqOn` holds of them there; writes keep agreement
(`overwrite_congr`).  A store of list keys moved under a prefix (`under`) maps each key that
starts with the prefix as the rest of the key, and nothing else; a write below the prefix is a
write of the whole key (`under_overwrite`).
-/

namespace Entries

variable {κ ν : Type*}

/-- `e` with the entry of `k` replaced by `v`. -/
def overwrite (e : κ → ν → Prop) (k : κ) (v : ν) (k' : κ) (v' : ν) : Prop :=
  (k' = k ∧ v' = v) ∨ (k' ≠ k ∧ e k' v')

@[simp] theorem overwrite_self {e : κ → ν → Prop} {k : κ} {v v' : ν} :
    overwrite e k v k v' ↔ v' = v := by
  simp [overwrite]

theorem overwrite_of_ne {e : κ → ν → Prop} {k k' : κ} {v v' : ν} (h : k' ≠ k) :
    overwrite e k v k' v' ↔ e k' v' := by
  simp [overwrite, h]

theorem iff_of_eqOn {e e' : κ → ν → Prop} {s : Set κ} (h : Set.EqOn e e' s) {k : κ} (hk : k ∈ s)
    (v : ν) : e k v ↔ e' k v :=
  Iff.of_eq (congrFun (h hk) v)

theorem eqOn_of_iff {e e' : κ → ν → Prop} {s : Set κ} (h : ∀ k ∈ s, ∀ v, e k v ↔ e' k v) :
    Set.EqOn e e' s :=
  fun k hk => funext fun v => propext (h k hk v)

theorem overwrite_congr {e e' : κ → ν → Prop} {s : Set κ} (h : Set.EqOn e e' s) (k : κ) (v : ν) :
    Set.EqOn (overwrite e k v) (overwrite e' k v) s := by
  intro k' hk'
  funext v'
  simp only [overwrite, h hk']

/-- The writes, first to last. -/
def writeAll (e : κ → ν → Prop) (ws : List (κ × ν)) : κ → ν → Prop :=
  ws.foldl (fun e w => overwrite e w.1 w.2) e

@[simp] theorem writeAll_nil (e : κ → ν → Prop) : writeAll e [] = e := rfl

theorem writeAll_cons (e : κ → ν → Prop) (w : κ × ν) (ws : List (κ × ν)) :
    writeAll e (w :: ws) = writeAll (overwrite e w.1 w.2) ws := rfl

variable [DecidableEq κ]

/-- The value of the last write to `k`. -/
def lastWrite (ws : List (κ × ν)) (k : κ) : Option ν :=
  (ws.reverse.find? (·.1 = k)).map (·.2)

@[simp] theorem lastWrite_nil (k : κ) : lastWrite ([] : List (κ × ν)) k = none := rfl

theorem lastWrite_cons (w : κ × ν) (ws : List (κ × ν)) (k : κ) :
    lastWrite (w :: ws) k = (lastWrite ws k).or (if w.1 = k then some w.2 else none) := by
  unfold lastWrite
  rw [List.reverse_cons, List.find?_append]
  cases (ws.reverse.find? (·.1 = k)) with
  | some x => rfl
  | none => by_cases h : w.1 = k <;> simp [h]

/-- Last write wins: after the writes, a key maps to the value last written to it, or as in `e`
when none was. -/
theorem writeAll_iff (e : κ → ν → Prop) (ws : List (κ × ν)) (k : κ) (v : ν) :
    writeAll e ws k v ↔ match lastWrite ws k with
      | some w => v = w
      | none => e k v := by
  induction ws generalizing e with
  | nil => rfl
  | cons w ws ih =>
    rw [writeAll_cons, ih, lastWrite_cons]
    cases lastWrite ws k with
    | some x => rfl
    | none =>
      by_cases hk : w.1 = k
      · subst hk
        simp
      · simp [hk, overwrite_of_ne (Ne.symm hk)]

theorem lastWrite_eq_none {ws : List (κ × ν)} {k : κ} (h : ∀ w ∈ ws, w.1 ≠ k) :
    lastWrite ws k = none := by
  simp only [lastWrite, Option.map_eq_none_iff, List.find?_eq_none, List.mem_reverse,
    decide_eq_true_eq]
  exact h

/-- Among writes to distinct keys, the last write to a key is the only one. -/
theorem lastWrite_of_mem {ws : List (κ × ν)} {k : κ} {v : ν} (hnd : (ws.map Prod.fst).Nodup)
    (h : (k, v) ∈ ws) : lastWrite ws k = some v := by
  induction ws with
  | nil => simp at h
  | cons w ws ih =>
    rw [List.map_cons, List.nodup_cons] at hnd
    rw [lastWrite_cons]
    rcases List.mem_cons.mp h with rfl | h
    · have hnone : lastWrite ws k = none :=
        lastWrite_eq_none fun w' hw' hk => hnd.1 (List.mem_map.mpr ⟨w', hw', hk⟩)
      simp [hnone]
    · simp [ih hnd.2 h]

section Under

variable {α ν : Type*}

/-- The store `e` moved under the prefix `pre`: the key `pre ++ k` maps as `k` does in `e`, and a
key that does not start with `pre` maps to nothing. -/
def under (pre : List α) (e : List α → Option ν → Prop) (k : List α) (v : Option ν) : Prop :=
  (∃ rest, k = pre ++ rest ∧ e rest v) ∨ (¬ pre <+: k ∧ v = none)

variable {pre k : List α} {e e' : List α → Option ν → Prop} {v : Option ν}

@[simp] theorem under_append : under pre e (pre ++ k) v ↔ e k v := by
  simp [under]

@[simp] theorem under_self : under pre e pre v ↔ e [] v := by
  simpa using (under_append : under pre e (pre ++ []) v ↔ e [] v)

theorem under_of_not_isPrefix (h : ¬ pre <+: k) : under pre e k v ↔ v = none := by
  constructor
  · rintro (⟨rest, rfl, -⟩ | ⟨-, hv⟩)
    · exact absurd (List.prefix_append pre rest) h
    · exact hv
  · exact fun hv => .inr ⟨h, hv⟩

@[simp] theorem under_nil (e : List α → Option ν → Prop) : under [] e = e := by
  funext k v
  simp [under]

@[simp] theorem under_cons {a : α} : under (a :: pre) e (a :: k) v ↔ under pre e k v := by
  by_cases hp : pre <+: k
  · obtain ⟨t, rfl⟩ := hp
    rw [← List.cons_append, under_append, under_append]
  · rw [under_of_not_isPrefix hp, under_of_not_isPrefix (by rwa [List.cons_prefix_cons, and_iff_right rfl])]

theorem under_cons_of_ne {a b : α} (h : b ≠ a) : under (a :: pre) e (b :: k) v ↔ v = none :=
  under_of_not_isPrefix fun hp => h (List.cons_prefix_cons.mp hp).1.symm

theorem under_under (a b : List α) (e : List α → Option ν → Prop) :
    under a (under b e) = under (a ++ b) e := by
  funext k v
  apply propext
  by_cases hab : a ++ b <+: k
  · obtain ⟨rest, rfl⟩ := hab
    rw [List.append_assoc, under_append, under_append, ← List.append_assoc, under_append]
  · rw [under_of_not_isPrefix hab]
    by_cases ha : a <+: k
    · obtain ⟨t, rfl⟩ := ha
      have hb : ¬ b <+: t := fun hb => hab ((List.prefix_append_right_inj a).mpr hb)
      rw [under_append, under_of_not_isPrefix hb]
    · exact under_of_not_isPrefix ha

/-- A write below the prefix is a write of the whole key. -/
theorem under_overwrite (pre : List α) (e : List α → Option ν → Prop) (k : List α)
    (w : Option ν) : under pre (overwrite e k w) = overwrite (under pre e) (pre ++ k) w := by
  funext k' v
  by_cases hp : pre <+: k'
  · obtain ⟨t, rfl⟩ := hp
    simp [overwrite]
  · have hne : k' ≠ pre ++ k := fun h => hp (h ▸ List.prefix_append pre k)
    rw [under_of_not_isPrefix hp, overwrite_of_ne hne, under_of_not_isPrefix hp]

/-- Stores that agree on the keys below the prefix agree, moved under it. -/
theorem under_congr {s : Set (List α)} (h : Set.EqOn e e' (Set.preimage (pre ++ ·) s)) :
    Set.EqOn (under pre e) (under pre e') s := by
  apply eqOn_of_iff
  intro k hk v
  by_cases hp : pre <+: k
  · obtain ⟨t, rfl⟩ := hp
    rw [under_append, under_append]
    exact iff_of_eqOn h hk v
  · rw [under_of_not_isPrefix hp, under_of_not_isPrefix hp]

end Under

end Entries
