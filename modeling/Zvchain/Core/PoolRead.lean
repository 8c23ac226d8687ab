import Zvchain.Core.PoolInvariant

/-!
# Reading the pending transactions

`pendingContainer.asSlice(limit)` walks the lists of `waitingMap` and counts what it appends, and
its `break` leaves the loop over one list only.  It returns a prefix of every list, so distinct
pending transactions, as many as the limit allows when there are so many; but every further list
still gives its first transaction, so every source has one in the slice whatever the limit.
-/

namespace Zvchain

namespace PendingContainer

variable {Address : Type}

section Loops

variable (limit : ℤ)

theorem asSliceList_isPrefixOf (l : List (PoolTx Address)) (count : ℤ) :
    (asSliceList limit l count).1 <+: l := by
  induction l generalizing count with
  | nil => exact List.nil_prefix
  | cons tx rest ih =>
    unfold asSliceList
    split_ifs
    · exact List.cons_prefix_cons.mpr ⟨rfl, List.nil_prefix⟩
    · exact List.cons_prefix_cons.mpr ⟨rfl, ih (count + 1)⟩

theorem asSliceList_snd (l : List (PoolTx Address)) (count : ℤ) :
    (asSliceList limit l count).2 = count + (asSliceList limit l count).1.length := by
  induction l generalizing count with
  | nil => simp [asSliceList]
  | cons tx rest ih =>
    unfold asSliceList
    split_ifs
    · simp
    · simp only [List.length_cons, ih (count + 1)]
      omega

/-- The loop over one list appends up to the limit, and at least one transaction. -/
theorem length_asSliceList (l : List (PoolTx Address)) (count : ℤ) :
    (asSliceList limit l count).1.length = min l.length (max (limit - count).toNat 1) := by
  induction l generalizing count with
  | nil => simp [asSliceList]
  | cons tx rest ih =>
    unfold asSliceList
    split_ifs with h
    · simp only [List.length_cons, List.length_nil]
      omega
    · simp only [List.length_cons, ih (count + 1)]
      omega

theorem asSliceLists_sublist (ls : List (List (PoolTx Address))) (count : ℤ) :
    (asSliceLists limit ls count).Sublist ls.flatten := by
  induction ls generalizing count with
  | nil => exact List.Sublist.refl _
  | cons l ls ih =>
    unfold asSliceLists
    exact (asSliceList_isPrefixOf limit l count).sublist.append (ih _)

/-- The outer loop stops short of the limit only when the lists run out. -/
theorem min_le_length_asSliceLists (ls : List (List (PoolTx Address))) (count : ℤ) :
    min (limit - count).toNat ls.flatten.length ≤ (asSliceLists limit ls count).length := by
  induction ls generalizing count with
  | nil => simp [asSliceLists]
  | cons l ls ih =>
    unfold asSliceLists
    have hl := length_asSliceList limit l count
    have hrest := ih (asSliceList limit l count).2
    have hsnd := asSliceList_snd limit l count
    simp only [List.flatten_cons, List.length_append]
    omega

/-- Every non-empty list gives at least its first transaction, whatever the count. -/
theorem length_le_length_asSliceLists (ls : List (List (PoolTx Address))) (count : ℤ)
    (hne : ∀ l ∈ ls, l ≠ []) : ls.length ≤ (asSliceLists limit ls count).length := by
  induction ls generalizing count with
  | nil => simp
  | cons l ls ih =>
    unfold asSliceLists
    have hl := length_asSliceList limit l count
    have hpos : 0 < l.length := List.length_pos_iff.mpr (hne l List.mem_cons_self)
    have hrest := ih (asSliceList limit l count).2 fun l' h' => hne l' (List.mem_cons_of_mem l h')
    simp only [List.length_cons, List.length_append]
    omega

/-- After the limit is reached, each further list adds one transaction and no more. -/
theorem length_asSliceLists_le (ls : List (List (PoolTx Address))) (count : ℤ) :
    (asSliceLists limit ls count).length ≤ max (limit - count).toNat 1 + ls.length - 1 := by
  induction ls generalizing count with
  | nil => simp [asSliceLists]
  | cons l ls ih =>
    unfold asSliceLists
    have hl := length_asSliceList limit l count
    have hrest := ih (asSliceList limit l count).2
    have hsnd := asSliceList_snd limit l count
    simp only [List.length_cons, List.length_append]
    omega

end Loops

variable [DecidableEq Address] {s : PendingContainer Address}

omit [DecidableEq Address] in
theorem asSlice_sublist (limit : ℤ) (ord : GoMap.IterOrder (Σ _ : Address, List (PoolTx Address))) :
    (s.asSlice limit ord).Sublist ((ord.order s.waitingMap.entries).map (·.2)).flatten :=
  asSliceLists_sublist limit _ 0

/-- Ranging over `waitingMap` under the invariant visits non-empty lists only. -/
theorem order_lists_ne_nil (hs : s.Inv) (ord : GoMap.IterOrder (Σ _ : Address, List (PoolTx Address))) :
    ∀ l ∈ (ord.order s.waitingMap.entries).map (·.2), l ≠ [] := fun l hl =>
  have ⟨a, ha⟩ := mem_order_lists ord hl
  (hs.lists a l ha).ne_nil

/-- `asSlice` returns distinct pending transactions: at least `limit` of them when there are so
many, at least one of every source, and at most one more than the limit for each source after the
one that reaches it. -/
theorem asSlice_spec (hs : s.Inv) (limit : ℤ)
    (ord : GoMap.IterOrder (Σ _ : Address, List (PoolTx Address))) :
    ((s.asSlice limit ord).map (·.hash)).Nodup ∧ (∀ tx ∈ s.asSlice limit ord, tx ∈ s.txs) ∧
      min limit.toNat s.txs.length ≤ (s.asSlice limit ord).length ∧
      s.waitingMap.entries.length ≤ (s.asSlice limit ord).length ∧
      (s.asSlice limit ord).length ≤ max limit.toNat 1 + s.waitingMap.entries.length - 1 := by
  have hperm := GoMap.flat_order_perm ord s.waitingMap
  have hsub : (s.asSlice limit ord).Sublist _ := asSlice_sublist limit ord
  have hne := order_lists_ne_nil hs ord
  have hlen : ((ord.order s.waitingMap.entries).map (·.2)).length = s.waitingMap.entries.length := by
    rw [List.length_map, (ord.perm _).length_eq]
  refine ⟨?_, fun tx htx => hperm.subset (hsub.subset htx), ?_, ?_, ?_⟩
  · exact (hsub.map _).nodup ((hperm.map _).nodup_iff.mpr hs.hashes)
  · have := min_le_length_asSliceLists limit ((ord.order s.waitingMap.entries).map (·.2)) 0
    rwa [sub_zero, hperm.length_eq] at this
  · exact hlen ▸ length_le_length_asSliceLists limit _ 0 hne
  · have := length_asSliceLists_le limit ((ord.order s.waitingMap.entries).map (·.2)) 0
    rwa [sub_zero, hlen] at this

/-! ## `peek` -/

section Peek

omit [DecidableEq Address] in
theorem lawful_priceHeap : SliceHeap.Lawful (@priceHeap.Less Address) where
  asymm a b h := by
    simp only [priceHeap.Less, decide_eq_true_eq, decide_eq_false_iff_not] at h ⊢
    omega
  ntrans a b c hab hbc := by
    simp only [priceHeap.Less, decide_eq_false_iff_not] at hab hbc ⊢
    omega

/-- The transactions of source `a` among `called`. -/
def calledOf (called : List (PoolTx Address)) (a : Address) : List (PoolTx Address) :=
  called.filter fun t => t.source = a

theorem calledOf_append_self (called : List (PoolTx Address)) (tx : PoolTx Address) :
    calledOf (called ++ [tx]) tx.source = calledOf called tx.source ++ [tx] := by
  simp [calledOf, List.filter_append]

theorem calledOf_append_of_ne (called : List (PoolTx Address)) (tx : PoolTx Address) {b : Address}
    (hb : b ≠ tx.source) : calledOf (called ++ [tx]) b = calledOf called b := by
  simp [calledOf, List.filter_append, Ne.symm hb]

omit [DecidableEq Address] in
theorem ListOk.nodup {a : Address} {l : List (PoolTx Address)} (h : ListOk a l) : l.Nodup := by
  show l.Pairwise (· ≠ ·)
  refine h.sorted.imp fun hlt => ?_
  rintro rfl
  exact UInt64.lt_irrefl _ hlt

theorem eq_of_getElem?_of_nodup {α : Type} {l : List α} (hl : l.Nodup) {i j : ℕ} {y : α}
    (hi : l[i]? = some y) (hj : l[j]? = some y) : i = j := by
  obtain ⟨hil, rfl⟩ := List.getElem?_eq_some_iff.mp hi
  obtain ⟨hjl, hji⟩ := List.getElem?_eq_some_iff.mp hj
  exact ((hl.getElem_inj_iff).mp hji).symm

theorem not_mem_take_of_getElem? {α : Type} {l : List α} (hl : l.Nodup) {k : ℕ} {y : α}
    (hy : l[k]? = some y) : y ∉ l.take k := by
  intro hmem
  obtain ⟨j, hj, hjy⟩ := List.mem_take_iff_getElem.mp hmem
  have := eq_of_getElem?_of_nodup hl (List.getElem?_eq_getElem (by omega)) (hjy ▸ hy)
  omega

theorem isPrefixOf_append_of_getElem? {α : Type} {p l : List α} (hp : p <+: l) {y : α}
    (hy : l[p.length]? = some y) : p ++ [y] <+: l := by
  have hp' := List.prefix_iff_eq_take.mp hp
  have : p ++ [y] = l.take (p.length + 1) := by
    rw [List.take_add_one, hy, Option.toList_some, ← hp']
  rw [this]
  exact List.take_prefix _ _

/-- What the loop of `peek` keeps: the heap holds, once, the first transaction not yet called of
every source, `noncePositionMap` has its position, and the calls so far of a source are the start
of its list. -/
structure PeekInv (s : PendingContainer Address) (packingList : List (PoolTx Address))
    (pos : Address → ℕ) (called : List (PoolTx Address)) : Prop where
  heap : SliceHeap.IsHeap priceHeap.Less packingList
  nodup : packingList.Nodup
  heads : ∀ y, y ∈ packingList ↔
    ∃ a l, s.waitingMap.lookup a = some l ∧ l[(calledOf called a).length]? = some y
  called_start : ∀ a l, s.waitingMap.lookup a = some l → calledOf called a <+: l
  pos : ∀ a l, s.waitingMap.lookup a = some l → (calledOf called a).length < l.length →
    pos a = (calledOf called a).length
  called_src : ∀ x ∈ called, ∃ l, s.waitingMap.lookup x.source = some l

/-- Every call is on a transaction of the highest gas price among the first transactions, not
called before, of all the sources. -/
def Greedy (s : PendingContainer Address) (called : List (PoolTx Address)) : Prop :=
  ∀ i (hi : i < called.length), ∀ a l y, s.waitingMap.lookup a = some l →
    l[(calledOf (called.take i) a).length]? = some y → y.gasPrice ≤ called[i].gasPrice

variable {heap rest : List (PoolTx Address)} {pos : Address → ℕ} {called : List (PoolTx Address)}
  {tx : PoolTx Address}

theorem PeekInv.mem_heap (hs : s.Inv) (hi : PeekInv s heap pos called) {y : PoolTx Address}
    (hy : y ∈ heap) : ∃ l, s.waitingMap.lookup y.source = some l ∧
      l[(calledOf called y.source).length]? = some y := by
  obtain ⟨a, l, hl, hget⟩ := (hi.heads y).mp hy
  have hsrc : y.source = a := (hs.lists a l hl).source y (List.mem_of_getElem? hget)
  subst hsrc
  exact ⟨l, hl, hget⟩

/-- The calls are distinct transactions of the lists. -/
theorem PeekInv.called_nodup (hs : s.Inv) (hi : PeekInv s heap pos called) : called.Nodup := by
  rw [List.nodup_iff_count_le_one]
  intro x
  by_cases hx : x ∈ called
  · obtain ⟨l, hl⟩ := hi.called_src x hx
    have hcount : called.count x = (calledOf called x.source).count x :=
      (List.count_filter (by simp)).symm
    rw [hcount]
    calc (calledOf called x.source).count x ≤ l.count x :=
          ((hi.called_start _ l hl).sublist).count_le x
      _ ≤ 1 := List.nodup_iff_count_le_one.mp (hs.lists _ l hl).nodup x
  · rw [List.count_eq_zero_of_not_mem hx]
    exact Nat.zero_le _

theorem PeekInv.called_subset (hi : PeekInv s heap pos called) : ∀ x ∈ called, x ∈ s.txs := by
  intro x hx
  obtain ⟨l, hl⟩ := hi.called_src x hx
  have : x ∈ calledOf called x.source := List.mem_filter.mpr ⟨hx, by simp⟩
  exact mem_txs_of_lookup hl ((hi.called_start _ l hl).sublist.subset this)

/-- While the heap holds a transaction, some pending transaction is not called yet. -/
theorem PeekInv.length_lt (hs : s.Inv) (hi : PeekInv s heap pos called) (hne : heap ≠ []) :
    called.length < s.txs.length := by
  obtain ⟨y, hy⟩ := List.exists_mem_of_ne_nil heap hne
  obtain ⟨l, hl, hget⟩ := hi.mem_heap hs hy
  have hyl : y ∉ called := by
    intro hyc
    have hmem : y ∈ calledOf called y.source := List.mem_filter.mpr ⟨hyc, by simp⟩
    rw [List.prefix_iff_eq_take.mp (hi.called_start _ l hl)] at hmem
    exact not_mem_take_of_getElem? (hs.lists _ l hl).nodup hget hmem
  have hsub : (y :: called).Subperm s.txs := by
    refine (List.nodup_cons.mpr ⟨hyl, hi.called_nodup hs⟩).subperm fun x hx => ?_
    rcases List.mem_cons.mp hx with rfl | hx
    · exact mem_txs_of_lookup hl (List.mem_of_getElem? hget)
    · exact hi.called_subset x hx
  have := hsub.length_le
  simp only [List.length_cons] at this
  omega

/-- Once the heap is empty, every list has been called whole. -/
theorem PeekInv.calledOf_eq (hi : PeekInv s [] pos called) {a : Address} {l : List (PoolTx Address)}
    (hl : s.waitingMap.lookup a = some l) : calledOf called a = l := by
  have hp := hi.called_start a l hl
  have hnone : l[(calledOf called a).length]? = none := by
    cases h : l[(calledOf called a).length]? with
    | none => rfl
    | some y => exact absurd ((hi.heads y).mpr ⟨a, l, hl, h⟩) List.not_mem_nil
  exact hp.eq_of_length (Nat.le_antisymm hp.length_le (List.getElem?_eq_none_iff.mp hnone))

theorem PeekInv.perm_txs (hs : s.Inv) (hi : PeekInv s [] pos called) : called.Perm s.txs := by
  have htxs : s.txs.Nodup := List.Nodup.of_map _ hs.hashes
  refine (List.perm_ext_iff_of_nodup (hi.called_nodup hs) htxs).mpr fun x => ⟨hi.called_subset x, ?_⟩
  intro hx
  have hxl := mem_lookup_of_mem_txs hs hx
  cases hl : s.waitingMap.lookup x.source with
  | none => simp [hl] at hxl
  | some l =>
    rw [hl, Option.getD_some, ← hi.calledOf_eq hl] at hxl
    exact (List.mem_filter.mp hxl).1

/-- What `peekAdvance` does: the next transaction of the source, when its list has one, goes to
the heap, and its position to the map. -/
theorem peekAdvance_spec {l : List (PoolTx Address)} {k : ℕ} (hl : s.waitingMap.lookup tx.source = some l)
    (hpos : pos tx.source = k) (hh : SliceHeap.IsHeap priceHeap.Less rest) (hnd : rest.Nodup)
    (hfresh : ∀ z, l[k + 1]? = some z → z ∉ rest) :
    SliceHeap.IsHeap priceHeap.Less (s.peekAdvance rest pos tx).1 ∧ (s.peekAdvance rest pos tx).1.Nodup ∧
      (∀ y, y ∈ (s.peekAdvance rest pos tx).1 ↔ y ∈ rest ∨ l[k + 1]? = some y) ∧
      (k + 1 < l.length → (s.peekAdvance rest pos tx).2 tx.source = k + 1) ∧
      ∀ b, b ≠ tx.source → (s.peekAdvance rest pos tx).2 b = pos b := by
  unfold peekAdvance
  rw [hl, hpos]
  dsimp only
  split
  · rename_i hnext
    obtain ⟨hh', hperm⟩ := SliceHeap.push_spec lawful_priceHeap hh l[k + 1]
    refine ⟨hh', hperm.nodup_iff.mpr (List.nodup_cons.mpr
      ⟨hfresh _ (List.getElem?_eq_getElem hnext), hnd⟩), fun y => ?_, fun _ => by simp,
      fun b hb => by simp [hb]⟩
    rw [hperm.mem_iff, List.mem_cons, List.getElem?_eq_getElem hnext, Option.some_inj, eq_comm]
    exact or_comm
  · rename_i hnext
    refine ⟨hh, hnd, fun y => ?_, fun h => absurd h hnext, fun _ _ => rfl⟩
    rw [List.getElem?_eq_none (by omega)]
    simp

/-- One round of the loop keeps `PeekInv`. -/
theorem PeekInv.advance (hs : s.Inv) (hi : PeekInv s heap pos called)
    (hpop : SliceHeap.pop priceHeap.Less heap = some (tx, rest)) :
    PeekInv s (s.peekAdvance rest pos tx).1 (s.peekAdvance rest pos tx).2 (called ++ [tx]) := by
  obtain ⟨hrest, hperm, -⟩ := SliceHeap.pop_eq_some lawful_priceHeap hi.heap hpop
  have hnd : (tx :: rest).Nodup := hperm.nodup_iff.mpr hi.nodup
  have hmem_rest : ∀ y, y ∈ rest ↔ y ∈ heap ∧ y ≠ tx := fun y => by
    rw [← hperm.mem_iff, List.mem_cons]
    constructor
    · intro hy
      exact ⟨.inr hy, fun h => (List.nodup_cons.mp hnd).1 (h ▸ hy)⟩
    · rintro ⟨hy | hy, hne⟩
      · exact absurd hy hne
      · exact hy
  obtain ⟨l, hl, hk⟩ := hi.mem_heap hs (hperm.subset List.mem_cons_self)
  set a := tx.source with ha
  set k := (calledOf called a).length with hkdef
  have hlok := hs.lists a l hl
  -- a pending transaction of source `a` in the heap is the one just popped
  have hsrc : ∀ b l' y, s.waitingMap.lookup b = some l' → y ∈ l' → y.source = b :=
    fun b l' y hl' hy => (hs.lists b l' hl').source y hy
  have hlookup : ∀ l', s.waitingMap.lookup a = some l' → l' = l := fun l' hl' =>
    Option.some.inj (hl'.symm.trans hl)
  have hfresh : ∀ z, l[k + 1]? = some z → z ∉ rest := by
    intro z hz hzr
    obtain ⟨b, l', hl', hget⟩ := (hi.heads z).mp ((hmem_rest z).mp hzr).1
    have hb : b = a := (hsrc b l' z hl' (List.mem_of_getElem? hget)).symm.trans
      (hsrc a l z hl (List.mem_of_getElem? hz))
    subst hb
    rw [hlookup l' hl'] at hget
    have := eq_of_getElem?_of_nodup hlok.nodup hget hz
    omega
  have hpos : pos a = k := hi.pos a l hl (List.getElem?_eq_some_iff.mp hk).1
  obtain ⟨hh', hnd', hmem', hpos_self, hpos_ne⟩ :=
    peekAdvance_spec (s := s) hl hpos hrest (List.nodup_cons.mp hnd).2 hfresh
  have hk_self : (calledOf (called ++ [tx]) a).length = k + 1 := by
    rw [ha, calledOf_append_self, List.length_append, List.length_singleton]
  refine ⟨hh', hnd', fun y => ?_, fun b l' hl' => ?_, fun b l' hl' hlt => ?_, fun x hx => ?_⟩
  · rw [hmem']
    constructor
    · rintro (hy | hy)
      · obtain ⟨hyh, hyt⟩ := (hmem_rest y).mp hy
        obtain ⟨b, l', hl', hget⟩ := (hi.heads y).mp hyh
        by_cases hb : b = a
        · subst hb
          rw [hlookup l' hl'] at hget
          exact absurd (Option.some.inj (hget.symm.trans hk)) hyt
        · exact ⟨b, l', hl', by rwa [calledOf_append_of_ne _ _ hb]⟩
      · exact ⟨a, l, hl, by rwa [hk_self]⟩
    · rintro ⟨b, l', hl', hget⟩
      by_cases hb : b = a
      · subst hb
        rw [hlookup l' hl', hk_self] at hget
        exact .inr hget
      · rw [calledOf_append_of_ne _ _ hb] at hget
        refine .inl ((hmem_rest y).mpr ⟨(hi.heads y).mpr ⟨b, l', hl', hget⟩, fun hyt => hb ?_⟩)
        rw [← hsrc b l' y hl' (List.mem_of_getElem? hget), hyt]
  · by_cases hb : b = a
    · subst hb
      rw [hlookup l' hl', ha, calledOf_append_self]
      exact isPrefixOf_append_of_getElem? (hi.called_start _ l hl) hk
    · rw [calledOf_append_of_ne _ _ hb]
      exact hi.called_start b l' hl'
  · by_cases hb : b = a
    · subst hb
      rw [hlookup l' hl'] at hlt
      rw [hk_self] at hlt ⊢
      exact hpos_self hlt
    · rw [calledOf_append_of_ne _ _ hb] at hlt ⊢
      rw [hpos_ne b hb]
      exact hi.pos b l' hl' hlt
  · rcases List.mem_append.mp hx with hx | hx
    · exact hi.called_src x hx
    · rw [List.mem_singleton.mp hx]
      exact ⟨l, hl⟩

theorem Greedy.append (hg : Greedy s called) (hi : PeekInv s heap pos called)
    (hmax : ∀ y ∈ heap, y.gasPrice ≤ tx.gasPrice) : Greedy s (called ++ [tx]) := by
  intro i hi' a l y hl hy
  by_cases hic : i < called.length
  · rw [List.take_append_of_le_length (Nat.le_of_lt hic)] at hy
    rw [List.getElem_append_left hic]
    exact hg i hic a l y hl hy
  · have hieq : i = called.length := by
      simp only [List.length_append, List.length_singleton] at hi'
      omega
    subst hieq
    rw [List.take_left] at hy
    have htx : (called ++ [tx])[called.length] = tx := by simp
    rw [htx]
    exact hmax y ((hi.heads y).mpr ⟨a, l, hl, hy⟩)

theorem called_isPrefixOf_peekLoop (f : List (PoolTx Address) → PoolTx Address → Bool) (fuel : ℕ) :
    ∀ heap pos called, called <+: peekLoop s f fuel heap pos called := by
  induction fuel with
  | zero => intro heap pos called; exact List.prefix_refl _
  | succ fuel ih =>
    intro heap pos called
    unfold peekLoop
    split
    · exact List.prefix_refl _
    · split_ifs
      · exact List.prefix_append _ _
      · exact (List.prefix_append _ _).trans (ih _ _ _)

/-- The calls of `peek` under any callback are a start of those under one that always goes on. -/
theorem peekLoop_isPrefixOf_true (f : List (PoolTx Address) → PoolTx Address → Bool) (fuel : ℕ) :
    ∀ heap pos called, peekLoop s f fuel heap pos called <+:
      peekLoop s (fun _ _ => true) fuel heap pos called := by
  induction fuel with
  | zero => intro heap pos called; exact List.prefix_refl _
  | succ fuel ih =>
    intro heap pos called
    unfold peekLoop
    split
    · exact List.prefix_refl _
    · rename_i tx rest hpop
      by_cases hf : f called tx = false
      · rw [if_pos hf, if_neg (by simp)]
        exact called_isPrefixOf_peekLoop _ _ _ _ _
      · rw [if_neg hf, if_neg (by simp)]
        exact ih _ _ _

/-- The loop under a callback that always goes on calls it on every pending transaction. -/
theorem peekLoop_spec (hs : s.Inv) (fuel : ℕ) :
    ∀ heap pos called, PeekInv s heap pos called → Greedy s called →
      s.txs.length ≤ called.length + fuel →
      ∃ pos', PeekInv s [] pos' (peekLoop s (fun _ _ => true) fuel heap pos called) ∧
        Greedy s (peekLoop s (fun _ _ => true) fuel heap pos called) := by
  induction fuel with
  | zero =>
    intro heap pos called hi hg hlen
    have hnil : heap = [] := by
      by_contra hne
      have := hi.length_lt hs hne
      omega
    subst hnil
    exact ⟨pos, hi, hg⟩
  | succ fuel ih =>
    intro heap pos called hi hg hlen
    unfold peekLoop
    split
    · rename_i hpop
      have hnil := SliceHeap.eq_nil_of_pop_eq_none lawful_priceHeap hi.heap hpop
      subst hnil
      exact ⟨pos, hi, hg⟩
    · rename_i tx rest hpop
      rw [if_neg (by simp)]
      obtain ⟨-, -, hmin⟩ := SliceHeap.pop_eq_some lawful_priceHeap hi.heap hpop
      have hmax : ∀ y ∈ heap, y.gasPrice ≤ tx.gasPrice := fun y hy => by
        simpa [priceHeap.Less] using hmin y hy
      refine ih _ _ _ (hi.advance hs hpop) (hg.append hi hmax) ?_
      simp only [List.length_append, List.length_singleton]
      omega

theorem filterMap_head?_sublist {α : Type} :
    ∀ ls : List (List α), (ls.filterMap List.head?).Sublist ls.flatten
  | [] => List.Sublist.slnil
  | [] :: ls => by
    simp only [List.filterMap_cons, List.head?_nil, List.flatten_cons, List.nil_append]
    exact filterMap_head?_sublist ls
  | (x :: xs) :: ls => by
    simp only [List.filterMap_cons, List.head?_cons, List.flatten_cons, List.cons_append]
    exact ((filterMap_head?_sublist ls).trans (List.sublist_append_right xs _)).cons_cons x

omit [DecidableEq Address] in
theorem peekHeads_spec : ∀ (ls : List (List (PoolTx Address))) (heap : List (PoolTx Address)),
    SliceHeap.IsHeap priceHeap.Less heap → (∀ l ∈ ls, l ≠ []) →
    ∃ heap', peekHeads ls heap = .ok heap' ∧ SliceHeap.IsHeap priceHeap.Less heap' ∧
      heap'.Perm (ls.filterMap List.head? ++ heap)
  | [], heap, hh, _ => ⟨heap, rfl, hh, List.Perm.refl _⟩
  | l :: ls, heap, hh, hne => by
    obtain ⟨x, xs, rfl⟩ := List.exists_cons_of_ne_nil (hne l List.mem_cons_self)
    obtain ⟨hh', hperm⟩ := SliceHeap.push_spec lawful_priceHeap hh x
    obtain ⟨heap', hrun, hh'', hperm'⟩ :=
      peekHeads_spec ls _ hh' fun l' h' => hne l' (List.mem_cons_of_mem _ h')
    refine ⟨heap', hrun, hh'', ?_⟩
    simp only [List.filterMap_cons, List.head?_cons]
    exact hperm'.trans ((hperm.append_left _).trans List.perm_middle)

/-- The heap of first transactions starts the loop with nothing called. -/
theorem peekInv_start (hs : s.Inv) (ord : GoMap.IterOrder (Σ _ : Address, List (PoolTx Address)))
    (hh : SliceHeap.IsHeap priceHeap.Less heap)
    (hperm : heap.Perm (((ord.order s.waitingMap.entries).map (·.2)).filterMap List.head? ++ [])) :
    PeekInv s heap (fun _ => 0) [] := by
  rw [List.append_nil] at hperm
  have hsub := filterMap_head?_sublist ((ord.order s.waitingMap.entries).map (·.2))
  have htxs : s.txs.Nodup := List.Nodup.of_map _ hs.hashes
  refine ⟨hh, hperm.nodup_iff.mpr (hsub.nodup ((GoMap.flat_order_perm ord _).nodup_iff.mpr htxs)),
    fun y => ?_, fun a l _ => List.nil_prefix, fun _ _ _ _ => rfl, fun _ hx => absurd hx List.not_mem_nil⟩
  simp only [calledOf, List.filter_nil, List.length_nil]
  rw [hperm.mem_iff, List.mem_filterMap]
  constructor
  · rintro ⟨l, hl, hy⟩
    obtain ⟨⟨a, l'⟩, he, rfl⟩ := List.mem_map.mp hl
    exact ⟨a, l', AList.mem_lookup_iff.mpr ((ord.perm _).subset he), List.head?_eq_getElem? ▸ hy⟩
  · rintro ⟨a, l, hl, hy⟩
    refine ⟨l, List.mem_map.mpr ⟨⟨a, l⟩, (ord.perm _).mem_iff.mpr (AList.mem_lookup_iff.mp hl), rfl⟩, ?_⟩
    rwa [List.head?_eq_getElem?]

/-- Under a callback that always goes on, `peek` calls it once on every pending transaction, the
transactions of a source in the order of its list (increasing nonces), and each time on one of the
highest gas price among the first transactions not yet called of all sources; under any callback
it makes a start of those calls. -/
theorem peek_order_complete (hs : s.Inv)
    (ord : GoMap.IterOrder (Σ _ : Address, List (PoolTx Address))) :
    ∃ calls, s.peek (fun _ _ => true) ord = .ok calls ∧ calls.Perm s.txs ∧
      (∀ a l, s.waitingMap.lookup a = some l → calls.filter (fun t => t.source = a) = l ∧
        (calls.filter (fun t => t.source = a)).Pairwise (fun t u => t.nonce < u.nonce)) ∧
      (∀ i (hi : i < calls.length), ∀ a l y, s.waitingMap.lookup a = some l →
        l[((calls.take i).filter (fun t => t.source = a)).length]? = some y →
        y.gasPrice ≤ calls[i].gasPrice) ∧
      ∀ f, ∃ calls', s.peek f ord = .ok calls' ∧ calls' <+: calls := by
  by_cases hsize : s.size = 0
  · -- nothing is pending
    have htxs : s.txs = [] := List.eq_nil_of_length_eq_zero (by have := hs.size_eq; omega)
    have hnone : ∀ a l, s.waitingMap.lookup a ≠ some l := fun a l hl => by
      obtain ⟨x, hx⟩ := List.exists_mem_of_ne_nil l (hs.lists a l hl).ne_nil
      have := mem_txs_of_lookup hl hx
      rw [htxs] at this
      exact List.not_mem_nil this
    refine ⟨[], by simp [peek, hsize], by rw [htxs], fun a l hl => absurd hl (hnone a l),
      fun i hi => absurd hi (Nat.not_lt_zero _), fun f => ⟨[], by simp [peek, hsize], List.prefix_refl _⟩⟩
  · obtain ⟨heap, hrun, hh, hperm⟩ := peekHeads_spec ((ord.order s.waitingMap.entries).map (·.2)) []
      SliceHeap.isHeap_nil (order_lists_ne_nil hs ord)
    have hpeek : ∀ f, s.peek f ord = .ok (peekLoop s f s.txs.length heap (fun _ => 0) []) := by
      intro f
      simp only [peek, if_neg hsize, SliceHeap.init_nil, hrun, Outcome.ok_bind]
      rfl
    obtain ⟨pos', hi', hg⟩ := peekLoop_spec hs s.txs.length heap _ [] (peekInv_start hs ord hh hperm)
      (fun i hi => absurd hi (Nat.not_lt_zero _)) (by simp)
    refine ⟨_, hpeek _, hi'.perm_txs hs, fun a l hl => ?_, fun i hi a l y hl hy => hg i hi a l y hl hy,
      fun f => ⟨_, hpeek f, peekLoop_isPrefixOf_true f _ _ _ _⟩⟩
    have hcalled := hi'.calledOf_eq hl
    refine ⟨hcalled, ?_⟩
    change (calledOf _ a).Pairwise _
    rw [hcalled]
    exact (hs.lists a l hl).sorted

/-- Source `0` with nonces `1` and `2` at gas prices `1` and `5`, and source `1` with nonce `1` at
gas price `3`. -/
def twoSources : PendingContainer ℕ :=
  ⟨16, 3, @AList.insert ℕ (fun _ => List (PoolTx ℕ)) _ 1 [⟨BytesToHash [3], 1, 1, 3⟩]
    (@AList.insert ℕ (fun _ => List (PoolTx ℕ)) _ 0
      [⟨BytesToHash [1], 0, 1, 1⟩, ⟨BytesToHash [2], 0, 2, 5⟩] ∅)⟩

theorem peek_order_at_two_sources :
    twoSources.Inv ∧ ∃ calls, twoSources.peek (fun _ _ => true) .stored = .ok calls ∧
      calls.Perm twoSources.txs ∧
      (∀ a l, twoSources.waitingMap.lookup a = some l → calls.filter (fun t => t.source = a) = l ∧
        (calls.filter (fun t => t.source = a)).Pairwise (fun t u => t.nonce < u.nonce)) ∧
      (∀ i (hi : i < calls.length), ∀ a l y, twoSources.waitingMap.lookup a = some l →
        l[((calls.take i).filter (fun t => t.source = a)).length]? = some y →
        y.gasPrice ≤ calls[i].gasPrice) ∧
      ∀ f, ∃ calls', twoSources.peek f .stored = .ok calls' ∧ calls' <+: calls :=
  ⟨by decide, peek_order_complete (by decide) .stored⟩

example : twoSources.peek (fun _ _ => true) .stored =
    .ok [⟨BytesToHash [3], 1, 1, 3⟩, ⟨BytesToHash [1], 0, 1, 1⟩, ⟨BytesToHash [2], 0, 2, 5⟩] := by
  decide

end Peek

end PendingContainer

namespace SimpleContainer

variable {Address : Type} [DecidableEq Address]

/-- The snapshot of the container holds a transaction of every pending source, whatever the
limit. -/
theorem sources_le_length_asSlice {c : SimpleContainer Address} (hc : c.Inv) (limit : ℤ)
    (ord : GoMap.IterOrder (Σ _ : Address, List (PoolTx Address))) :
    c.pending.waitingMap.entries.length ≤ (c.asSlice limit ord).length :=
  (PendingContainer.asSlice_spec hc.pending _ ord).2.2.2.1

/-- Two sources with one pending transaction each: a snapshot of at most one transaction holds
both. -/
theorem asSlice_exceeds_limit :
    ∃ c : SimpleContainer ℕ, Reachable c ∧ ∀ ord, 1 < (c.asSlice 1 ord).length := by
  have r0 : Reachable (newSimpleContainer 16 16 1800 : SimpleContainer ℕ) := .init ⟨16, 16, 1800, rfl⟩
  have r1 := r0.step (Step.push ⟨BytesToHash [1], 0, 1, 1⟩ 0 0 .stored .stored rfl)
  have r2 := r1.step (Step.push ⟨BytesToHash [2], 1, 1, 1⟩ 0 0 .stored .stored rfl)
  refine ⟨_, r2, fun ord => ?_⟩
  have h := sources_le_length_asSlice (reachable_inv r2) 1 ord
  exact Nat.lt_of_lt_of_le (by decide) h

end SimpleContainer

end Zvchain
