import Zvchain.Core.SimpleContainer

/-!
# The pending lists of the transaction pool

The pending lists keep the shape the skip lists assume: each is non-empty, holds transactions of
its source only, by increasing nonce, `size` counts them all, and no hash is held twice
(`PendingContainer.Inv`).  Within such a list `orderByNonceTx.Compare` calls only a transaction
equal to itself, so `remove` of a pending transaction removes it alone.  `push` of a transaction
whose hash is not pending keeps the invariant, never panics, and drops no transaction but the one
it reports evicted (`Pushed`).
-/

namespace Zvchain

variable {Address : Type}

theorem compare_eq_iff {tx tx2 : PoolTx Address} :
    orderByNonceTx.Compare tx tx2 = .eq ↔ tx.hash = tx2.hash ∨ tx.nonce = tx2.nonce := by
  unfold orderByNonceTx.Compare
  split_ifs <;> grind

theorem compare_lt_iff {tx tx2 : PoolTx Address} :
    orderByNonceTx.Compare tx tx2 = .lt ↔ tx.hash ≠ tx2.hash ∧ tx.nonce < tx2.nonce := by
  unfold orderByNonceTx.Compare
  split_ifs <;> grind

theorem compare_gt_iff {tx tx2 : PoolTx Address} :
    orderByNonceTx.Compare tx tx2 = .gt ↔ tx.hash ≠ tx2.hash ∧ tx2.nonce < tx.nonce := by
  unfold orderByNonceTx.Compare
  split_ifs <;> grind

namespace PendingContainer

/-- A list of `waitingMap` as the skip lists keep it: not empty, of its source, by increasing
nonce. -/
structure ListOk (a : Address) (l : List (PoolTx Address)) : Prop where
  ne_nil : l ≠ []
  source : ∀ tx ∈ l, tx.source = a
  sorted : l.Pairwise fun t u => t.nonce < u.nonce

variable [DecidableEq Address]

/-- The transactions of all the lists. -/
def txs (s : PendingContainer Address) : List (PoolTx Address) := GoMap.flat s.waitingMap

/-- The transactions of the lists of the other sources. -/
def rest (s : PendingContainer Address) (a : Address) : List (PoolTx Address) :=
  GoMap.flat (s.waitingMap.erase a)

/-- The invariant of `pendingContainer`. -/
structure Inv (s : PendingContainer Address) : Prop where
  size_eq : s.size = s.txs.length
  lists : ∀ a l, s.waitingMap.lookup a = some l → ListOk a l
  hashes : (s.txs.map (·.hash)).Nodup

omit [DecidableEq Address] in
theorem listOk_iff {a : Address} {l : List (PoolTx Address)} :
    ListOk a l ↔ l ≠ [] ∧ (∀ tx ∈ l, tx.source = a) ∧ l.Pairwise fun t u => t.nonce < u.nonce :=
  ⟨fun h => ⟨h.ne_nil, h.source, h.sorted⟩, fun h => ⟨h.1, h.2.1, h.2.2⟩⟩

instance {a : Address} {l : List (PoolTx Address)} : Decidable (ListOk a l) :=
  decidable_of_iff _ listOk_iff.symm

/-- The invariant read on the entries of the map, as a check that runs. -/
theorem inv_iff {s : PendingContainer Address} :
    s.Inv ↔ s.size = s.txs.length ∧ (∀ e ∈ s.waitingMap.entries, ListOk e.1 e.2) ∧
      (s.txs.map (·.hash)).Nodup := by
  constructor
  · rintro ⟨h1, h2, h3⟩
    exact ⟨h1, fun e he => h2 e.1 e.2 (AList.mem_lookup_iff.mpr he), h3⟩
  · rintro ⟨h1, h2, h3⟩
    exact ⟨h1, fun a l hl => h2 ⟨a, l⟩ (AList.mem_lookup_iff.mp hl), h3⟩

instance {s : PendingContainer Address} : Decidable s.Inv := decidable_of_iff _ inv_iff.symm

variable {s : PendingContainer Address} {a : Address} {tx x : PoolTx Address}

theorem txs_perm (s : PendingContainer Address) (a : Address) :
    s.txs.Perm ((s.waitingMap.lookup a).getD [] ++ s.rest a) :=
  GoMap.flat_perm _ a

theorem mem_txs_iff (a : Address) : x ∈ s.txs ↔ x ∈ (s.waitingMap.lookup a).getD [] ∨ x ∈ s.rest a := by
  rw [(txs_perm s a).mem_iff, List.mem_append]

theorem mem_txs_of_lookup {l : List (PoolTx Address)} (hl : s.waitingMap.lookup a = some l)
    (hx : x ∈ l) : x ∈ s.txs :=
  GoMap.mem_flat.mpr ⟨a, l, hl, hx⟩

/-- A transaction of the other lists is of another source. -/
theorem source_ne_of_mem_rest (hs : s.Inv) (hx : x ∈ s.rest a) : x.source ≠ a := by
  obtain ⟨b, l, hl, hxl⟩ := GoMap.mem_flat.mp hx
  have hba : b ≠ a := fun hba => by rw [hba, AList.lookup_erase] at hl; cases hl
  rw [AList.lookup_erase_ne hba] at hl
  rw [(hs.lists b l hl).source x hxl]
  exact hba

/-- A transaction of a source is in that source's list. -/
theorem mem_lookup_of_mem_txs (hs : s.Inv) (hx : x ∈ s.txs) :
    x ∈ (s.waitingMap.lookup x.source).getD [] := by
  rcases (mem_txs_iff x.source).mp hx with h | h
  · exact h
  · exact absurd rfl (source_ne_of_mem_rest hs h)

/-- Within one list, the comparator calls only a transaction equal to itself. -/
theorem eq_of_compare_eq_of_mem (hs : s.Inv) {l : List (PoolTx Address)}
    (hl : s.waitingMap.lookup a = some l) {y : PoolTx Address} (hx : x ∈ l) (hy : y ∈ l)
    (h : orderByNonceTx.Compare x y = .eq) : x = y := by
  have hnodup : (l.map (·.hash)).Nodup := by
    have hperm := (txs_perm s a).map (·.hash)
    rw [hl, Option.getD_some, List.map_append] at hperm
    exact (List.nodup_append.mp (hperm.nodup_iff.mp hs.hashes)).1
  rcases compare_eq_iff.mp h with hh | hn
  · exact List.inj_on_of_nodup_map hnodup hx hy hh
  · -- the nonces of a list increase strictly, so they are distinct
    have hnn : (l.map (·.nonce)).Nodup :=
      List.pairwise_map.mpr ((hs.lists a l hl).sorted.imp UInt64.ne_of_lt)
    exact List.inj_on_of_nodup_map hnn hx hy hn

/-- The list of a source, or none: by increasing nonce and of that source. -/
theorem getD_listOk (hs : s.Inv) (a : Address) :
    (∀ x ∈ (s.waitingMap.lookup a).getD [], x.source = a) ∧
      ((s.waitingMap.lookup a).getD []).Pairwise fun t u => t.nonce < u.nonce := by
  cases hl : s.waitingMap.lookup a with
  | none => simp
  | some l => exact ⟨(hs.lists a l hl).source, (hs.lists a l hl).sorted⟩

theorem length_txs (s : PendingContainer Address) (a : Address) :
    s.txs.length = ((s.waitingMap.lookup a).getD []).length + (s.rest a).length := by
  rw [(txs_perm s a).length_eq, List.length_append]

theorem txs_with_insert (size' : ℤ) (l : List (PoolTx Address)) :
    ({ s with size := size', waitingMap := s.waitingMap.insert a l } : PendingContainer Address).txs =
      l ++ s.rest a :=
  GoMap.flat_insert _ _ _

theorem txs_with_erase (size' : ℤ) :
    ({ s with size := size', waitingMap := s.waitingMap.erase a } : PendingContainer Address).txs =
      s.rest a :=
  rfl

/-- Setting the list of a source keeps the invariant when the list has the shape of a skip list,
brings no hash twice and is counted. -/
theorem inv_insert (hs : s.Inv) {l : List (PoolTx Address)} (hl : ListOk a l)
    (hh : ((l ++ s.rest a).map (·.hash)).Nodup) {size' : ℤ}
    (hsize : size' = s.size - ((s.waitingMap.lookup a).getD []).length + l.length) :
    Inv { s with size := size', waitingMap := s.waitingMap.insert a l } where
  size_eq := by
    rw [txs_with_insert, List.length_append]
    dsimp only
    rw [hsize, hs.size_eq, length_txs s a]
    push_cast
    ring
  lists b l' hb := by
    by_cases hba : b = a
    · subst hba
      rw [AList.lookup_insert] at hb
      exact Option.some.inj hb ▸ hl
    · rw [AList.lookup_insert_ne hba] at hb
      exact hs.lists b l' hb
  hashes := by
    rw [txs_with_insert]
    exact hh

/-- Dropping the list of a source keeps the invariant when its transactions are uncounted. -/
theorem inv_erase (hs : s.Inv) {size' : ℤ}
    (hsize : size' = s.size - ((s.waitingMap.lookup a).getD []).length) :
    Inv { s with size := size', waitingMap := s.waitingMap.erase a } where
  size_eq := by
    rw [txs_with_erase]
    dsimp only
    rw [hsize, hs.size_eq, length_txs s a]
    push_cast
    ring
  lists b l' hb := by
    by_cases hba : b = a
    · subst hba
      rw [AList.lookup_erase] at hb
      cases hb
    · rw [AList.lookup_erase_ne hba] at hb
      exact hs.lists b l' hb
  hashes := by
    have hperm := (txs_perm s a).map (·.hash)
    rw [List.map_append] at hperm
    exact (List.nodup_append.mp (hperm.nodup_iff.mp hs.hashes)).2.1

/-- `remove` deletes the transactions of the source's list that the comparator calls equal to
`tx`, and keeps the invariant. -/
theorem remove_spec (hs : s.Inv) (tx : PoolTx Address) :
    (s.remove tx).Inv ∧ ∀ x, x ∈ (s.remove tx).txs ↔
      x ∈ s.txs ∧ ¬ (x.source = tx.source ∧ orderByNonceTx.Compare x tx = .eq) := by
  unfold remove
  cases hl : s.waitingMap.lookup tx.source with
  | none =>
    -- no list of the source: nothing of the source is pending
    refine ⟨hs, fun x => ⟨fun hx => ⟨hx, fun ⟨hsrc, _⟩ => ?_⟩, fun hx => hx.1⟩⟩
    have := mem_lookup_of_mem_txs hs hx
    rw [hsrc, hl] at this
    simp at this
  | some l =>
    simp only
    have hlen := @SortedSet.length_delete _ orderByNonceTx.Compare l tx
    have hmem : ∀ x, x ∈ s.txs ↔ x ∈ l ∨ x ∈ s.rest tx.source := fun x => by
      rw [mem_txs_iff tx.source, hl, Option.getD_some]
    have hsrc : ∀ x ∈ l, x.source = tx.source := (hs.lists _ l hl).source
    split_ifs with hempty
    · -- every transaction of the list is equal to `tx`: the list goes
      have hall : ∀ x ∈ l, orderByNonceTx.Compare x tx = .eq := fun x hx => by
        by_contra hne
        have : x ∈ (SortedSet.delete orderByNonceTx.Compare l tx).1 :=
          SortedSet.mem_delete_fst.mpr ⟨hx, hne⟩
        rw [List.length_eq_zero_iff.mp hempty] at this
        cases this
      refine ⟨inv_erase hs (by rw [hl, Option.getD_some]; omega), fun x => ?_⟩
      rw [txs_with_erase, hmem]
      constructor
      · intro hx
        exact ⟨Or.inr hx, fun ⟨h, _⟩ => source_ne_of_mem_rest hs hx h⟩
      · rintro ⟨hx | hx, hn⟩
        · exact absurd ⟨hsrc x hx, hall x hx⟩ hn
        · exact hx
    · -- the kept transactions are the list's new value
      have hsub := @SortedSet.delete_fst_sublist _ orderByNonceTx.Compare l tx
      have hok := hs.lists _ l hl
      have hh : (((SortedSet.delete orderByNonceTx.Compare l tx).1 ++ s.rest tx.source).map
          (·.hash)).Nodup := by
        have hperm := (txs_perm s tx.source).map (·.hash)
        rw [hl, Option.getD_some] at hperm
        exact ((hsub.append_right _).map _).nodup (hperm.nodup_iff.mp hs.hashes)
      refine ⟨inv_insert hs ⟨fun h => hempty (by rw [h]; rfl),
        fun x hx => hok.source x (hsub.subset hx), hok.sorted.sublist hsub⟩ hh
        (by rw [hl, Option.getD_some]; omega), fun x => ?_⟩
      rw [txs_with_insert, List.mem_append, SortedSet.mem_delete_fst, hmem]
      constructor
      · rintro (⟨hx, hne⟩ | hx)
        · exact ⟨Or.inl hx, fun ⟨_, h⟩ => hne h⟩
        · exact ⟨Or.inr hx, fun ⟨h, _⟩ => source_ne_of_mem_rest hs hx h⟩
      · rintro ⟨hx | hx, hn⟩
        · exact Or.inl ⟨hx, fun h => hn ⟨hsrc x hx, h⟩⟩
        · exact Or.inr hx

/-- Removing a pending transaction removes it alone. -/
theorem mem_remove_of_mem (hs : s.Inv) (hx : x ∈ s.txs) (y : PoolTx Address) :
    y ∈ (s.remove x).txs ↔ y ∈ s.txs ∧ y ≠ x := by
  rw [(remove_spec hs x).2]
  refine and_congr_right fun hy => not_congr ⟨fun ⟨hsrc, hcmp⟩ => ?_, fun hyx => ?_⟩
  · have hxl := mem_lookup_of_mem_txs hs hx
    have hyl := mem_lookup_of_mem_txs hs hy
    rw [hsrc] at hyl
    cases hl : s.waitingMap.lookup x.source with
    | none => rw [hl] at hxl; cases hxl
    | some l =>
      rw [hl, Option.getD_some] at hxl hyl
      exact eq_of_compare_eq_of_mem hs hl hyl hxl hcmp
  · subst hyx
    exact ⟨rfl, compare_eq_iff.mpr (Or.inl rfl)⟩

/-- What `push` does to the pending transactions when it reports `tx` added: `tx` is kept or
evicted, and no other transaction is dropped but the evicted one. -/
structure Pushed (s : PendingContainer Address) (tx : PoolTx Address)
    (s' : PendingContainer Address) (evicted conflicted : Option (PoolTx Address)) : Prop where
  inv : s'.Inv
  mem : ∀ x ∈ s'.txs, x = tx ∨ x ∈ s.txs
  kept : ∀ x ∈ s.txs, x ∉ s'.txs → evicted = some x
  added : tx ∈ s'.txs ∨ evicted = some tx
  evicted_mem : ∀ e, evicted = some e → e ∉ s'.txs ∧ (e = tx ∨ e ∈ s.txs)
  conflicted : evicted.isSome → conflicted.isSome

/-- A pending transaction after `push` has another hash than the evicted one. -/
theorem Pushed.hash_ne_evicted {s' : PendingContainer Address} {evicted conflicted : Option (PoolTx Address)}
    (hs : s.Inv) (hfresh : tx.hash ∉ s.txs.map (·.hash)) (hp : Pushed s tx s' evicted conflicted)
    (hx : x ∈ s'.txs) {e : PoolTx Address} (he : evicted = some e) : x.hash ≠ e.hash := by
  intro hxe
  obtain ⟨he', hetx⟩ := hp.evicted_mem e he
  have hfresh' : ∀ y ∈ s.txs, y.hash ≠ tx.hash := fun y hy h => hfresh (h ▸ List.mem_map_of_mem hy)
  -- `x` is `e`, which is not pending any more
  have hxe' : x = e := by
    rcases hp.mem x hx with rfl | hxs
    · rcases hetx with rfl | hes
      · rfl
      · exact absurd hxe.symm (hfresh' e hes)
    · rcases hetx with rfl | hes
      · exact absurd hxe (hfresh' x hxs)
      · exact List.inj_on_of_nodup_map hs.hashes hxs hes hxe
  exact he' (hxe' ▸ hx)

/-- A transaction turned away leaves the container as it was. -/
theorem pushed_rejected (hs : s.Inv) (hfresh : tx.hash ∉ s.txs.map (·.hash))
    (conflicted : PoolTx Address) : Pushed s tx s (some tx) (some conflicted) where
  inv := hs
  mem _ hx := Or.inr hx
  kept _ hx hx' := absurd hx hx'
  added := Or.inr rfl
  evicted_mem e he := by
    cases he
    exact ⟨fun h => hfresh (List.mem_map_of_mem h), Or.inl rfl⟩
  conflicted _ := rfl

/-- Inserting a fresh transaction into part of its source's list, where the comparator calls no
transaction equal to it, gives a list of the shape of a skip list and no hash twice. -/
theorem insert_ok (hs : s.Inv) (hfresh : tx.hash ∉ s.txs.map (·.hash)) {k : List (PoolTx Address)}
    (hk : k.Sublist ((s.waitingMap.lookup tx.source).getD []))
    (hne : ∀ x ∈ k, orderByNonceTx.Compare x tx ≠ .eq) :
    ListOk tx.source (SortedSet.insert orderByNonceTx.Compare k tx) ∧
      ((SortedSet.insert orderByNonceTx.Compare k tx ++ s.rest tx.source).map (·.hash)).Nodup := by
  obtain ⟨hsrc, hsorted⟩ := getD_listOk hs tx.source
  have hperm := SortedSet.insert_perm_of_forall_ne hne
  refine ⟨⟨fun h => by simpa [h] using hperm.mem_iff.mpr List.mem_cons_self, fun x hx => ?_,
    SortedSet.pairwise_insert (fun _ _ _ => UInt64.lt_trans) (hsorted.sublist hk)
      (fun _ _ h => (compare_lt_iff.mp h).2) (fun _ _ h => (compare_gt_iff.mp h).2)⟩, ?_⟩
  · rcases List.mem_cons.mp (hperm.mem_iff.mp hx) with rfl | hx
    · rfl
    · exact hsrc x (hk.subset hx)
  · -- the hashes of the rest are those of the pending ones, which `tx` does not have
    have hall : (((s.waitingMap.lookup tx.source).getD [] ++ s.rest tx.source).map (·.hash)).Perm
        (s.txs.map (·.hash)) := ((txs_perm s tx.source).map _).symm
    have hsub : ((k ++ s.rest tx.source).map (·.hash)).Sublist
        (((s.waitingMap.lookup tx.source).getD [] ++ s.rest tx.source).map (·.hash)) :=
      (hk.append_right _).map _
    rw [((hperm.append_right _).map _).nodup_iff, List.cons_append, List.map_cons,
      List.nodup_cons]
    exact ⟨fun h => hfresh (hall.subset (hsub.subset h)),
      hsub.nodup (hall.nodup_iff.mpr hs.hashes)⟩

/-- `doInsertOrReplace` on the source's list inserts a fresh transaction, replaces the one of its
nonce by it, or turns it away. -/
theorem doInsertOrReplace_pushed (hs : s.Inv) (hfresh : tx.hash ∉ s.txs.map (·.hash))
    {l : List (PoolTx Address)} (hl : (s.waitingMap.lookup tx.source).getD [] = l) :
    Pushed s tx (s.doInsertOrReplace l tx).1 (s.doInsertOrReplace l tx).2.1
      (s.doInsertOrReplace l tx).2.2 := by
  have hmem : ∀ x, x ∈ s.txs ↔ x ∈ l ∨ x ∈ s.rest tx.source := fun x => by
    rw [mem_txs_iff tx.source, hl]
  have hfresh' : ∀ x ∈ s.txs, x.hash ≠ tx.hash := fun x hx h => hfresh (h ▸ List.mem_map_of_mem hx)
  unfold doInsertOrReplace
  cases hget : SortedSet.get orderByNonceTx.Compare l tx with
  | none =>
    -- no transaction of the nonce: `tx` is added
    have hne := SortedSet.get_eq_none_iff.mp hget
    obtain ⟨hok, hh⟩ := insert_ok hs hfresh (hl ▸ List.Sublist.refl l) hne
    have hperm := SortedSet.insert_perm_of_forall_ne hne
    dsimp only
    refine ⟨inv_insert hs hok hh (by rw [hl, hperm.length_eq, List.length_cons]; push_cast; ring),
      fun x hx => ?_, fun x hx hx' => absurd ?_ hx', Or.inl ?_, (fun e he => by cases he),
      (fun h => by cases h)⟩
    · rw [txs_with_insert, List.mem_append, hperm.mem_iff, List.mem_cons] at hx
      rcases hx with (rfl | hx) | hx
      · exact Or.inl rfl
      · exact Or.inr ((hmem x).mpr (Or.inl hx))
      · exact Or.inr ((hmem x).mpr (Or.inr hx))
    · rw [txs_with_insert, List.mem_append, hperm.mem_iff, List.mem_cons]
      rcases (hmem x).mp hx with hx | hx
      · exact Or.inl (Or.inr hx)
      · exact Or.inr hx
    · rw [txs_with_insert, List.mem_append, hperm.mem_iff]
      exact Or.inl List.mem_cons_self
  | some e =>
    obtain ⟨he, hcmp⟩ := SortedSet.get_eq_some hget
    have he_txs : e ∈ s.txs := (hmem e).mpr (Or.inl he)
    have hlookup : s.waitingMap.lookup tx.source = some l := by
      cases h : s.waitingMap.lookup tx.source with
      | none => rw [h, Option.getD_none] at hl; subst hl; cases he
      | some l' => rw [h, Option.getD_some] at hl; rw [hl]
    -- the transaction equal to `tx` has its nonce, since its hash differs
    have henonce : e.nonce = tx.nonce := (compare_eq_iff.mp hcmp).resolve_left (hfresh' e he_txs)
    dsimp only
    split_ifs with hprice
    · -- `tx` pays more: it replaces the transactions equal to `e`, which is `e` alone
      set d := SortedSet.delete orderByNonceTx.Compare l e with hd
      have hne : ∀ x ∈ d.1, orderByNonceTx.Compare x tx ≠ .eq := fun x hx hxt => by
        obtain ⟨hxl, hxe⟩ := SortedSet.mem_delete_fst.mp hx
        rcases compare_eq_iff.mp hxt with hh | hn
        · exact hfresh' x ((hmem x).mpr (Or.inl hxl)) hh
        · exact hxe (compare_eq_iff.mpr (Or.inr (hn.trans henonce.symm)))
      obtain ⟨hok, hh⟩ := insert_ok hs hfresh (hl ▸ SortedSet.delete_fst_sublist l e) hne
      have hperm := SortedSet.insert_perm_of_forall_ne hne
      have hlen := @SortedSet.length_delete _ orderByNonceTx.Compare l e
      have hsrc : ∀ x ∈ l, x.source = tx.source := (hs.lists _ l hlookup).source
      refine ⟨inv_insert hs hok hh (by
          rw [hl, hperm.length_eq, List.length_cons, ← hlen]; push_cast; ring),
        fun x hx => ?_, fun x hx hx' => ?_, Or.inl ?_, fun e' he' => ?_, fun _ => rfl⟩
      · rw [txs_with_insert, List.mem_append, hperm.mem_iff, List.mem_cons] at hx
        rcases hx with (rfl | hx) | hx
        · exact Or.inl rfl
        · exact Or.inr ((hmem x).mpr (Or.inl (SortedSet.mem_delete_fst.mp hx).1))
        · exact Or.inr ((hmem x).mpr (Or.inr hx))
      · -- a dropped transaction was in the list and equal to `e`
        rw [txs_with_insert, List.mem_append, hperm.mem_iff, List.mem_cons, not_or, not_or] at hx'
        rcases (hmem x).mp hx with hxl | hxr
        · have hxe : orderByNonceTx.Compare x e = .eq := by
            by_contra hne'
            exact hx'.1.2 (SortedSet.mem_delete_fst.mpr ⟨hxl, hne'⟩)
          rw [eq_of_compare_eq_of_mem hs hlookup hxl he hxe]
        · exact absurd hxr hx'.2
      · rw [txs_with_insert, List.mem_append, hperm.mem_iff]
        exact Or.inl List.mem_cons_self
      · cases he'
        refine ⟨fun h => ?_, Or.inr he_txs⟩
        rw [txs_with_insert, List.mem_append, hperm.mem_iff, List.mem_cons] at h
        rcases h with (h | h) | h
        · exact hfresh' e he_txs (congrArg PoolTx.hash h)
        · exact (SortedSet.mem_delete_fst.mp h).2 (compare_eq_iff.mpr (Or.inl rfl))
        · exact source_ne_of_mem_rest hs h (hsrc e he)
    · exact pushed_rejected hs hfresh e

/-- The first part of `push` returns early or inserts; a list without a last transaction, where
the code would report an insertion it did not make, is never met. -/
theorem pushInsert_spec (hs : s.Inv) (hfresh : tx.hash ∉ s.txs.map (·.hash)) (stateNonce : UInt64) :
    s.pushInsert tx stateNonce = none ∨ ∃ s' evicted conflicted,
      s.pushInsert tx stateNonce = some (s', evicted, conflicted) ∧
        Pushed s tx s' evicted conflicted := by
  unfold pushInsert
  split_ifs with hnext
  · exact Or.inr ⟨_, _, _, rfl, doInsertOrReplace_pushed hs hfresh rfl⟩
  · cases hl : s.waitingMap.lookup tx.source with
    | none => exact Or.inl rfl
    | some l =>
      -- the source's list is not empty, so it has a last transaction
      obtain ⟨big, hbig⟩ := Option.isSome_iff_exists.mp
        (List.getLast?_isSome.mpr (hs.lists _ l hl).ne_nil)
      simp only [skipGetLast, hbig]
      split_ifs
      · exact Or.inl rfl
      · exact Or.inr ⟨_, _, _, rfl, doInsertOrReplace_pushed hs hfresh (by rw [hl]; rfl)⟩

omit [DecidableEq Address] in
/-- Over non-empty lists the loop does not panic, and the transaction it finds is one it started
with or one of the lists'. -/
theorem lowestLast_spec :
    ∀ (ls : List (List (PoolTx Address))) (low : Option (PoolTx Address)), (∀ l ∈ ls, l ≠ []) →
      ∃ r, lowestLast low ls = .ok r ∧ ∀ t, r = some t → low = some t ∨ ∃ l ∈ ls, t ∈ l
  | [], low, _ => ⟨low, rfl, fun _ h => Or.inl h⟩
  | l :: ls, low, hne => by
    obtain ⟨lastTx, hlast⟩ := Option.isSome_iff_exists.mp
      (List.getLast?_isSome.mpr (hne l List.mem_cons_self))
    have hmem : lastTx ∈ l := List.mem_of_getLast? hlast
    obtain ⟨r, hr, hspec⟩ := lowestLast_spec ls
      (some (if (low.getD lastTx).gasPrice > lastTx.gasPrice then lastTx else low.getD lastTx))
      fun l' hl' => hne l' (List.mem_cons_of_mem l hl')
    refine ⟨r, by rw [lowestLast, skipGetLast, hlast]; exact hr, fun t ht => ?_⟩
    rcases hspec t ht with h | ⟨l', hl', ht'⟩
    · -- the cheapest so far is the last transaction of `l` or the one before
      have hcases : t = lastTx ∨ t = low.getD lastTx := by
        split_ifs at h <;> simp_all
      rcases hcases with rfl | rfl
      · exact Or.inr ⟨l, List.mem_cons_self, hmem⟩
      · cases low with
        | none => exact Or.inr ⟨l, List.mem_cons_self, hmem⟩
        | some t' => exact Or.inl rfl
    · exact Or.inr ⟨l', List.mem_cons_of_mem l hl', ht'⟩

/-- The lists of the map, in any order of iteration, are its lists. -/
theorem mem_order_lists (ord : GoMap.IterOrder (Σ _ : Address, List (PoolTx Address)))
    {l : List (PoolTx Address)} (hl : l ∈ (ord.order s.waitingMap.entries).map (·.2)) :
    ∃ a, s.waitingMap.lookup a = some l := by
  obtain ⟨⟨a, l'⟩, he, rfl⟩ := List.mem_map.mp hl
  exact ⟨a, AList.mem_lookup_iff.mpr ((ord.perm _).subset he)⟩

/-- `push` of a fresh transaction never panics: it returns early with nothing changed, or adds the
transaction as `Pushed` says. -/
theorem push_spec (hs : s.Inv) (hfresh : tx.hash ∉ s.txs.map (·.hash)) (stateNonce : UInt64)
    (ord : GoMap.IterOrder (Σ _ : Address, List (PoolTx Address))) :
    ∃ s' added evicted conflicted,
      s.push tx stateNonce ord = .ok (s', added, evicted, conflicted) ∧
        (added = false → s' = s ∧ evicted = none) ∧
        (added = true → Pushed s tx s' evicted conflicted) := by
  unfold push
  rcases pushInsert_spec hs hfresh stateNonce with h | ⟨s1, ev1, cf1, h, hp⟩
  · rw [h]
    exact ⟨s, false, none, none, rfl, fun _ => ⟨rfl, rfl⟩, fun h => absurd h (by decide)⟩
  rw [h]
  dsimp only
  split_ifs with hfull
  · -- full: the cheapest last transaction of a list is found and removed
    obtain ⟨r, hr, hrspec⟩ := lowestLast_spec ((ord.order s1.waitingMap.entries).map (·.2)) none
      fun l hl => by
        obtain ⟨a, ha⟩ := mem_order_lists ord hl
        exact (hp.inv.lists a l ha).ne_nil
    rw [hr]
    cases r with
    | none => exact ⟨s1, true, ev1, cf1, rfl, fun h => absurd h (by decide), fun _ => hp⟩
    | some low =>
      have hlow : low ∈ s1.txs := by
        rcases hrspec low rfl with h | ⟨l, hl, hlow⟩
        · cases h
        · obtain ⟨a, ha⟩ := mem_order_lists ord hl
          exact mem_txs_of_lookup ha hlow
      have hev1 : ev1 = none := Option.isNone_iff_eq_none.mp hfull.1
      have hrem := mem_remove_of_mem hp.inv hlow
      refine ⟨s1.remove low, true, some low, some tx, rfl, fun h => absurd h (by decide),
        fun _ => ⟨(remove_spec hp.inv low).1, fun x hx => hp.mem x ((hrem x).mp hx).1,
          fun x hx hx' => ?_, ?_, fun e he => ?_, fun _ => rfl⟩⟩
      · by_cases hx1 : x ∈ s1.txs
        · rw [hrem x, not_and, not_not] at hx'
          rw [hx' hx1]
        · rw [hp.kept x hx hx1] at hev1
          cases hev1
      · rcases hp.added with htx | htx
        · by_cases htl : tx = low
          · exact Or.inr (congrArg some htl.symm)
          · exact Or.inl ((hrem tx).mpr ⟨htx, htl⟩)
        · rw [htx] at hev1
          cases hev1
      · cases he
        exact ⟨fun h => ((hrem low).mp h).2 rfl, hp.mem low hlow⟩
  · exact ⟨s1, true, ev1, cf1, rfl, fun h => absurd h (by decide), fun _ => hp⟩

end PendingContainer

end Zvchain
