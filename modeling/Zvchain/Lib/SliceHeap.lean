import Mathlib

/-!
# A binary heap on a slice

Go's `container/heap` keeps a heap in a slice through the methods `Less`, `Swap`, `Push` and
`Pop` of the slice's type: `heap.Push` appends and moves the element up, `heap.Pop` swaps the
root to the end, moves the new root down the rest, and takes the last element off.  Here the slice
is a list, `Less` a boolean relation `less`, and the loops `up` and `down` run on fuel that
suffices for them.

Under a relation that is asymmetric and whose negation is transitive (a strict weak order, as a
comparison of keys is), a heap keeps every element not less than its parent (`Ordered`): `push`
and `pop` keep that order and the elements, and `pop` takes out an element that no element of the
heap is less than.
-/

namespace SliceHeap

variable {α : Type*} (less : α → α → Bool)

/-- The parent of position `j`: `(j - 1) / 2`, which is `0` at the root, as Go's division
truncates `-1 / 2` to `0`. -/
def parent (j : ℕ) : ℕ := (j - 1) / 2

/-- `h.Less(i, j)` on positions of the slice. -/
def lessAt (h : List α) (i j : ℕ) : Bool :=
  match h[i]?, h[j]? with
  | some x, some y => less x y
  | _, _ => false

/-- The loop of `up`, for at most `fuel` rounds. -/
def upLoop : ℕ → List α → ℕ → List α
  | 0, h, _ => h
  | fuel + 1, h, j =>
    if parent j = j ∨ lessAt less h j (parent j) = false then h
    else upLoop fuel (h.swap (parent j) j) (parent j)

/-- `up`: the element at `j` moves towards the root while it is less than its parent. -/
def up (h : List α) (j : ℕ) : List α := upLoop less j h j

/-- The loop of `down`, for at most `fuel` rounds. -/
def downLoop (n : ℕ) : ℕ → List α → ℕ → List α
  | 0, h, _ => h
  | fuel + 1, h, i =>
    if 2 * i + 1 ≥ n then h
    else
      let j := if 2 * i + 2 < n ∧ lessAt less h (2 * i + 2) (2 * i + 1) = true then 2 * i + 2
        else 2 * i + 1
      if lessAt less h j i = false then h else downLoop n fuel (h.swap i j) j

/-- `down`: the element at `i0` moves towards the leaves below `n` while a child is less than it. -/
def down (h : List α) (i0 n : ℕ) : List α := downLoop less n n h i0

/-- `heap.Init`: `down` from each position that has a child, the last first. -/
def init (h : List α) : List α :=
  let n := h.length
  (List.range (n / 2)).reverse.foldl (fun h i => down less h i n) h

/-- `heap.Push`. -/
def push (h : List α) (x : α) : List α := up less (h ++ [x]) h.length

/-- `heap.Pop`: the root swapped to the end, the rest restored by `down`, and the last element
taken off.  It is `none` on the empty slice only, where the callers test `Len() == 0` first. -/
def pop (h : List α) : Option (α × List α) :=
  match h.length with
  | 0 => none
  | n + 1 =>
    let h := down less (h.swap 0 n) 0 n
    match h.getLast? with
    | some x => some (x, h.dropLast)
    | none => none

/-- No element is less than its parent, from position `1` below `n`. -/
def Ordered (n : ℕ) (h : List α) : Prop :=
  ∀ c, 0 < c → c < n → lessAt less h c (parent c) = false

/-- A heap: the whole slice is `Ordered`. -/
def IsHeap (h : List α) : Prop := Ordered less h.length h

/-- What `up` keeps while it moves the element at `j`: every element but that one is not less than
its parent, and the children of `j` are not less than the parent of `j`. -/
structure UpOrder (h : List α) (j : ℕ) : Prop where
  except : ∀ c, 0 < c → c ≠ j → lessAt less h c (parent c) = false
  grand : 0 < j → ∀ c, 0 < c → parent c = j → lessAt less h c (parent j) = false

/-- What `down` keeps below `n` while it moves the element at `i`: every element but the children
of `i` is not less than its parent, and the children of `i` are not less than the parent of `i`. -/
structure DownOrder (n : ℕ) (h : List α) (i : ℕ) : Prop where
  except : ∀ c, 0 < c → c < n → parent c ≠ i → lessAt less h c (parent c) = false
  grand : 0 < i → ∀ c, 0 < c → c < n → parent c = i → lessAt less h c (parent i) = false

/-- What the heap needs of `less`: asymmetry, and that not being less is transitive. -/
structure Lawful : Prop where
  asymm : ∀ a b, less a b = true → less b a = false
  ntrans : ∀ a b c, less a b = false → less b c = false → less a c = false

theorem init_nil : init less ([] : List α) = [] := by simp [init]

@[simp] theorem pop_nil : pop less ([] : List α) = none := rfl

/-! ## Positions -/

theorem parent_lt {j : ℕ} (hj : 0 < j) : parent j < j := by
  unfold parent
  omega

theorem parent_eq_iff {c i : ℕ} (hc : 0 < c) : parent c = i ↔ c = 2 * i + 1 ∨ c = 2 * i + 2 := by
  unfold parent
  omega

variable {less}

theorem lessAt_of_getElem? {h : List α} {i j : ℕ} {x y : α} (hx : h[i]? = some x)
    (hy : h[j]? = some y) : lessAt less h i j = less x y := by
  simp [lessAt, hx, hy]

theorem lessAt_of_length_le {h : List α} {i j : ℕ} (hi : h.length ≤ i) : lessAt less h i j = false := by
  simp [lessAt, List.getElem?_eq_none hi]

theorem lessAt_eq_true {h : List α} {i j : ℕ} (hl : lessAt less h i j = true) :
    i < h.length ∧ j < h.length := by
  unfold lessAt at hl
  split at hl
  · rename_i x y hx hy
    exact ⟨(List.getElem?_eq_some_iff.mp hx).1, (List.getElem?_eq_some_iff.mp hy).1⟩
  · cases hl

/-- `lessAt` reads only the two positions it compares. -/
theorem lessAt_congr {h h' : List α} {i j i' j' : ℕ} (hi : h'[i]? = h[i']?) (hj : h'[j]? = h[j']?) :
    lessAt less h' i j = lessAt less h i' j' := by
  simp [lessAt, hi, hj]

theorem getElem?_swap_left {h : List α} {i j : ℕ} (hi : i < h.length) (hj : j < h.length) :
    (h.swap i j)[i]? = h[j]? := by
  rw [List.swap_eq_of_lt hi hj]
  grind

theorem getElem?_swap_right {h : List α} {i j : ℕ} (hi : i < h.length) (hj : j < h.length) :
    (h.swap i j)[j]? = h[i]? := by
  rw [List.swap_eq_of_lt hi hj]
  grind

theorem getElem?_swap_of_ne {h : List α} {i j k : ℕ} (hki : k ≠ i) (hkj : k ≠ j) :
    (h.swap i j)[k]? = h[k]? := by
  by_cases hij : i < h.length ∧ j < h.length
  · rw [List.swap_eq_of_lt hij.1 hij.2]
    grind
  · rw [List.swap_eq, dif_neg hij]

section Lawful

variable (hl : Lawful less) {h : List α}
include hl

theorem lessAt_asymm {i j : ℕ} (hij : lessAt less h i j = true) : lessAt less h j i = false := by
  obtain ⟨hi, hj⟩ := lessAt_eq_true hij
  rw [lessAt_of_getElem? (List.getElem?_eq_getElem hi) (List.getElem?_eq_getElem hj)] at hij
  rw [lessAt_of_getElem? (List.getElem?_eq_getElem hj) (List.getElem?_eq_getElem hi)]
  exact hl.asymm _ _ hij

theorem lessAt_self (i : ℕ) : lessAt less h i i = false := by
  cases hii : lessAt less h i i with
  | false => rfl
  | true => exact absurd (lessAt_asymm hl hii) (by rw [hii]; decide)

theorem lessAt_ntrans {a b c : ℕ} (hb : b < h.length) (hab : lessAt less h a b = false)
    (hbc : lessAt less h b c = false) : lessAt less h a c = false := by
  cases ha : h[a]? with
  | none => simp [lessAt, ha]
  | some x =>
    cases hc : h[c]? with
    | none => simp [lessAt, ha, hc]
    | some z =>
      have hy := List.getElem?_eq_getElem hb
      rw [lessAt_of_getElem? ha hy] at hab
      rw [lessAt_of_getElem? hy hc] at hbc
      rw [lessAt_of_getElem? ha hc]
      exact hl.ntrans _ _ _ hab hbc

/-- In a heap no element is less than the root. -/
theorem lessAt_root (hh : IsHeap less h) : ∀ k, lessAt less h k 0 = false := by
  intro k
  induction k using Nat.strongRecOn with
  | ind k ih =>
    rcases Nat.eq_zero_or_pos k with rfl | hk
    · exact lessAt_self hl 0
    · by_cases hkl : k < h.length
      · exact lessAt_ntrans hl (Nat.lt_trans (parent_lt hk) hkl) (hh k hk hkl) (ih _ (parent_lt hk))
      · exact lessAt_of_length_le (Nat.le_of_not_lt hkl)

theorem not_less_root (hh : IsHeap less h) {r : α} (hr : h[0]? = some r) :
    ∀ y ∈ h, less y r = false := by
  intro y hy
  obtain ⟨k, hk, rfl⟩ := List.getElem_of_mem hy
  have e : lessAt less h k 0 = less h[k] r := lessAt_of_getElem? (List.getElem?_eq_getElem hk) hr
  rw [← e]
  exact lessAt_root hl hh k

end Lawful

/-! ## `up` -/

section Up

variable (hl : Lawful less) {h : List α} {j : ℕ}
include hl

theorem UpOrder.swap (o : UpOrder less h j) (hj : 0 < j) (hless : lessAt less h j (parent j) = true) :
    UpOrder less (h.swap (parent j) j) (parent j) := by
  obtain ⟨hjl, hpl⟩ := lessAt_eq_true hless
  have hpj := parent_lt hj
  constructor
  · intro c hc hcp
    by_cases hcj : c = j
    · subst hcj
      rw [lessAt_congr (getElem?_swap_right hpl hjl) (getElem?_swap_left hpl hjl)]
      exact lessAt_asymm hl hless
    · have hc' := getElem?_swap_of_ne (h := h) hcp hcj
      by_cases hcpp : parent c = parent j
      · -- a sibling of `j` is not less than the element that moves up
        have hsib := o.except c hc hcj
        rw [hcpp] at hsib ⊢
        rw [lessAt_congr hc' (getElem?_swap_left hpl hjl)]
        exact lessAt_ntrans hl hpl hsib (lessAt_asymm hl hless)
      · by_cases hcpj : parent c = j
        · rw [hcpj, lessAt_congr hc' (getElem?_swap_right hpl hjl)]
          exact o.grand hj c hc hcpj
        · rw [lessAt_congr hc' (getElem?_swap_of_ne hcpp hcpj)]
          exact o.except c hc hcj
  · intro hp c hc hcp
    have hgp := parent_lt hp
    have hg := getElem?_swap_of_ne (h := h) (i := parent j) (j := j) (k := parent (parent j))
      (by omega) (by omega)
    have hpp := o.except (parent j) hp (by omega)
    by_cases hcj : c = j
    · subst hcj
      rw [lessAt_congr (getElem?_swap_right hpl hjl) hg]
      exact hpp
    · have hpc := parent_lt hc
      have hsib := o.except c hc hcj
      rw [hcp] at hsib
      rw [lessAt_congr (getElem?_swap_of_ne (by omega) hcj) hg]
      exact lessAt_ntrans hl hpl hsib hpp

omit hl in
theorem UpOrder.isHeap (o : UpOrder less h j) (hstop : j = 0 ∨ lessAt less h j (parent j) = false) :
    IsHeap less h := by
  intro c hc _
  by_cases hcj : c = j
  · subst hcj
    rcases hstop with h0 | hstop
    · omega
    · exact hstop
  · exact o.except c hc hcj

theorem upLoop_spec (fuel : ℕ) (h : List α) (j : ℕ) (hj : j ≤ fuel) (o : UpOrder less h j) :
    IsHeap less (upLoop less fuel h j) ∧ (upLoop less fuel h j).Perm h := by
  induction fuel generalizing h j with
  | zero =>
    exact ⟨o.isHeap (.inl (by omega)), List.Perm.refl _⟩
  | succ fuel ih =>
    unfold upLoop
    by_cases hstop : parent j = j ∨ lessAt less h j (parent j) = false
    · rw [if_pos hstop]
      refine ⟨o.isHeap ?_, List.Perm.refl _⟩
      rcases hstop with hp | hp
      · exact .inl (by unfold parent at hp; omega)
      · exact .inr hp
    · rw [if_neg hstop]
      push Not at hstop
      have hj0 : 0 < j := by unfold parent at hstop; omega
      have hless : lessAt less h j (parent j) = true := by simpa using hstop.2
      have hpj := parent_lt hj0
      obtain ⟨hh, hp⟩ := ih _ _ (by omega) (o.swap hl hj0 hless)
      exact ⟨hh, hp.trans (List.swap_perm _ _ _)⟩

/-- `push` keeps the heap and adds the element. -/
theorem push_spec (hh : IsHeap less h) (x : α) :
    IsHeap less (push less h x) ∧ (push less h x).Perm (x :: h) := by
  have hget : ∀ k, k < h.length → (h ++ [x])[k]? = h[k]? := fun k hk => List.getElem?_append_left hk
  have o : UpOrder less (h ++ [x]) h.length := by
    constructor
    · intro c hc hcn
      by_cases hcl : c < h.length
      · rw [lessAt_congr (hget c hcl) (hget _ (Nat.lt_trans (parent_lt hc) hcl))]
        exact hh c hc hcl
      · apply lessAt_of_length_le
        simp only [List.length_append, List.length_singleton]
        omega
    · intro _ c hc hcp
      apply lessAt_of_length_le
      have := (parent_eq_iff hc).mp hcp
      simp only [List.length_append, List.length_singleton]
      omega
  obtain ⟨hh', hp⟩ := upLoop_spec hl h.length (h ++ [x]) h.length (Nat.le_refl _) o
  exact ⟨hh', hp.trans (List.perm_append_singleton x h)⟩

end Up

/-! ## `down` -/

section Down

variable (hl : Lawful less) {h : List α} {n i : ℕ}
include hl

/-- The child `down` picks is one that no child of `i` below `n` is less than. -/
theorem lessAt_picked {c : ℕ} (hc : 0 < c) (hcn : c < n) (hcp : parent c = i) :
    lessAt less h c (if 2 * i + 2 < n ∧ lessAt less h (2 * i + 2) (2 * i + 1) = true then 2 * i + 2
      else 2 * i + 1) = false := by
  have hci := (parent_eq_iff hc).mp hcp
  split_ifs with hpick
  · rcases hci with rfl | rfl
    · exact lessAt_asymm hl hpick.2
    · exact lessAt_self hl _
  · rcases hci with rfl | rfl
    · exact lessAt_self hl _
    · simpa [hcn] using hpick

theorem DownOrder.swap (o : DownOrder less n h i) {j : ℕ} (hjn : j < n)
    (hji : parent j = i) (hj0 : 0 < j)
    (hpicked : ∀ c, 0 < c → c < n → parent c = i → lessAt less h c j = false)
    (hless : lessAt less h j i = true) :
    DownOrder less n (h.swap i j) j := by
  obtain ⟨hjl, hil⟩ := lessAt_eq_true hless
  have hij : i < j := hji ▸ parent_lt hj0
  constructor
  · intro c hc hcn hcj
    by_cases hcj' : c = j
    · subst hcj'
      rw [hji, lessAt_congr (getElem?_swap_right hil hjl) (getElem?_swap_left hil hjl)]
      exact lessAt_asymm hl hless
    · by_cases hci : c = i
      · -- the element that moves up stays not less than the parent of `i`
        subst hci
        have hpc := parent_lt hc
        rw [lessAt_congr (getElem?_swap_left hil hjl) (getElem?_swap_of_ne (by omega) (by omega))]
        exact o.grand hc j hj0 hjn hji
      · have hc' := getElem?_swap_of_ne (h := h) hci hcj'
        by_cases hcpi : parent c = i
        · rw [hcpi, lessAt_congr hc' (getElem?_swap_left hil hjl)]
          exact hpicked c hc hcn hcpi
        · rw [lessAt_congr hc' (getElem?_swap_of_ne hcpi hcj)]
          exact o.except c hc hcn hcpi
  · intro _ c hc hcn hcp
    have hjc : j < c := hcp ▸ parent_lt hc
    rw [hji, lessAt_congr (getElem?_swap_of_ne (by omega) (by omega)) (getElem?_swap_left hil hjl)]
    have := o.except c hc hcn (by omega)
    rwa [hcp] at this

theorem DownOrder.ordered (o : DownOrder less n h i) (hnl : n ≤ h.length)
    (hstop : 2 * i + 1 ≥ n ∨ ∃ j, j < n ∧ lessAt less h j i = false ∧
      ∀ c, 0 < c → c < n → parent c = i → lessAt less h c j = false) :
    Ordered less n h := by
  intro c hc hcn
  by_cases hcp : parent c = i
  · rcases hstop with hstop | ⟨j, hjn, hji, hpicked⟩
    · have := (parent_eq_iff hc).mp hcp
      omega
    · rw [hcp]
      exact lessAt_ntrans hl (by omega) (hpicked c hc hcn hcp) hji
  · exact o.except c hc hcn hcp

theorem downLoop_spec (fuel : ℕ) (h : List α) (i : ℕ) (hfuel : n - i ≤ fuel) (hnl : n ≤ h.length)
    (o : DownOrder less n h i) :
    Ordered less n (downLoop less n fuel h i) ∧ (downLoop less n fuel h i).Perm h ∧
      ∀ k, n ≤ k → (downLoop less n fuel h i)[k]? = h[k]? := by
  induction fuel generalizing h i with
  | zero => exact ⟨o.ordered hl hnl (.inl (by omega)), List.Perm.refl _, fun _ _ => rfl⟩
  | succ fuel ih =>
    unfold downLoop
    by_cases hleaf : 2 * i + 1 ≥ n
    · rw [if_pos hleaf]
      exact ⟨o.ordered hl hnl (.inl hleaf), List.Perm.refl _, fun _ _ => rfl⟩
    · rw [if_neg hleaf]
      dsimp only
      generalize hjdef : (if 2 * i + 2 < n ∧ lessAt less h (2 * i + 2) (2 * i + 1) = true then
        2 * i + 2 else 2 * i + 1) = j
      have hjn : j < n := by rw [← hjdef]; split_ifs <;> omega
      have hj0 : 0 < j := by rw [← hjdef]; split_ifs <;> omega
      have hji : parent j = i := by
        rw [← hjdef]
        split_ifs <;> exact (parent_eq_iff (by omega)).mpr (by omega)
      have hpicked : ∀ c, 0 < c → c < n → parent c = i → lessAt less h c j = false :=
        fun c hc hcn hcp => hjdef ▸ lessAt_picked hl hc hcn hcp
      by_cases hstop : lessAt less h j i = false
      · rw [if_pos hstop]
        exact ⟨o.ordered hl hnl (.inr ⟨j, hjn, hstop, hpicked⟩), List.Perm.refl _, fun _ _ => rfl⟩
      · rw [if_neg hstop]
        have hless : lessAt less h j i = true := by simpa using hstop
        have hij : i < j := hji ▸ parent_lt hj0
        obtain ⟨hord, hperm, hkeep⟩ := ih (h.swap i j) j (by omega) (by simpa using hnl)
          (o.swap hl hjn hji hj0 hpicked hless)
        obtain ⟨hjl, hil⟩ := lessAt_eq_true hless
        refine ⟨hord, hperm.trans (List.swap_perm _ _ _), fun k hk => ?_⟩
        rw [hkeep k hk, getElem?_swap_of_ne (by omega) (by omega)]

/-- `pop` of a non-empty heap returns an element no element of the heap is less than, and the
rest as a heap. -/
theorem pop_spec (hh : IsHeap less h) (hne : h ≠ []) :
    ∃ x rest, pop less h = some (x, rest) ∧ IsHeap less rest ∧ (x :: rest).Perm h ∧
      ∀ y ∈ h, less y x = false := by
  obtain ⟨m, hm⟩ : ∃ m, h.length = m + 1 :=
    ⟨h.length - 1, by have := List.length_pos_iff.mpr hne; omega⟩
  have h0 : 0 < h.length := by omega
  have hml : m < h.length := by omega
  -- after the swap, only the children of the root may be out of order below `m`
  have o : DownOrder less m (h.swap 0 m) 0 := by
    constructor
    · intro c hc hcm hcp
      have hpc := parent_lt hc
      rw [lessAt_congr (getElem?_swap_of_ne (by omega) (by omega))
        (getElem?_swap_of_ne hcp (by omega))]
      exact hh c hc (by omega)
    · intro h0
      omega
  obtain ⟨hord, hperm, hkeep⟩ := downLoop_spec hl m (h.swap 0 m) 0 (by omega)
    (by rw [List.length_swap]; omega) o
  set d := downLoop less m m (h.swap 0 m) 0 with hd
  have hdl : d.length = m + 1 := by rw [hperm.length_eq, List.length_swap, hm]
  have hlast : d[m]? = h[0]? := by rw [hkeep m (Nat.le_refl _), getElem?_swap_right h0 hml]
  obtain ⟨r, hr⟩ : ∃ r, h[0]? = some r := ⟨h[0], List.getElem?_eq_getElem h0⟩
  have hget : d.getLast? = some r := by
    rw [List.getLast?_eq_getElem?, hdl, Nat.add_sub_cancel, hlast, hr]
  have hdrop : ∀ k, k < m → d.dropLast[k]? = d[k]? := fun k hk => by
    rw [List.getElem?_dropLast, if_pos (by omega)]
  refine ⟨r, d.dropLast, ?_, ?_, ?_, not_less_root hl hh hr⟩
  · simp only [pop, hm, down]
    rw [← hd, hget]
  · intro c hc hcl
    rw [List.length_dropLast, hdl, Nat.add_sub_cancel] at hcl
    rw [lessAt_congr (hdrop c hcl) (hdrop _ (Nat.lt_trans (parent_lt hc) hcl))]
    exact hord c hc hcl
  · have hsplit : d.dropLast ++ [r] = d := List.dropLast_append_getLast? r hget
    refine (List.perm_append_singleton r _).symm.trans ?_
    rw [hsplit]
    exact hperm.trans (List.swap_perm _ _ _)

theorem pop_eq_some (hh : IsHeap less h) {x : α} {rest : List α} (hp : pop less h = some (x, rest)) :
    IsHeap less rest ∧ (x :: rest).Perm h ∧ ∀ y ∈ h, less y x = false := by
  have hne : h ≠ [] := by
    rintro rfl
    simp at hp
  obtain ⟨x', rest', hp', hh', hperm, hmin⟩ := pop_spec hl hh hne
  rw [hp] at hp'
  cases hp'
  exact ⟨hh', hperm, hmin⟩

theorem eq_nil_of_pop_eq_none (hh : IsHeap less h) (hp : pop less h = none) : h = [] := by
  by_contra hne
  obtain ⟨x, rest, hp', -⟩ := pop_spec hl hh hne
  rw [hp] at hp'
  cases hp'

end Down

theorem isHeap_nil : IsHeap less ([] : List α) := fun _ _ hc => absurd hc (Nat.not_lt_zero _)

/-! ## Relations that agree on the elements

The loops compare elements of the slice only, so two relations that agree on them move the
elements alike.  A relation that is lawful only on some elements, as a comparison that wraps
around is, is handled through a lawful one that agrees with it there. -/

/-- `less` and `less'` agree on the elements of `s`. -/
def Agree (less less' : α → α → Bool) (s : List α) : Prop :=
  ∀ x ∈ s, ∀ y ∈ s, less x y = less' x y

variable {less' : α → α → Bool}

theorem Agree.perm {s s' : List α} (hag : Agree less less' s) (hp : s'.Perm s) :
    Agree less less' s' :=
  fun x hx y hy => hag x (hp.mem_iff.mp hx) y (hp.mem_iff.mp hy)

theorem Agree.subset {s s' : List α} (hag : Agree less less' s) (hs : s' ⊆ s) :
    Agree less less' s' :=
  fun x hx y hy => hag x (hs hx) y (hs hy)

theorem lessAt_eq_of_agree {h : List α} (hag : Agree less less' h) (i j : ℕ) :
    lessAt less h i j = lessAt less' h i j := by
  unfold lessAt
  split
  · next x y hx hy => exact hag x (List.mem_of_getElem? hx) y (List.mem_of_getElem? hy)
  · rfl

theorem isHeap_iff_of_agree {h : List α} (hag : Agree less less' h) :
    IsHeap less h ↔ IsHeap less' h := by
  unfold IsHeap Ordered
  simp only [lessAt_eq_of_agree hag]

theorem upLoop_eq_of_agree (fuel : ℕ) {h : List α} (hag : Agree less less' h) (j : ℕ) :
    upLoop less fuel h j = upLoop less' fuel h j := by
  induction fuel generalizing h j with
  | zero => rfl
  | succ fuel ih =>
    rw [upLoop, upLoop, lessAt_eq_of_agree hag]
    split_ifs
    · rfl
    · exact ih (hag.perm (List.swap_perm _ _ _)) _

theorem downLoop_eq_of_agree (n fuel : ℕ) {h : List α} (hag : Agree less less' h) (i : ℕ) :
    downLoop less n fuel h i = downLoop less' n fuel h i := by
  induction fuel generalizing h i with
  | zero => rfl
  | succ fuel ih =>
    simp only [downLoop, lessAt_eq_of_agree hag]
    split_ifs
    all_goals first
      | rfl
      | exact ih (hag.perm (List.swap_perm _ _ _)) _

theorem push_eq_of_agree {h : List α} {x : α} (hag : Agree less less' (h ++ [x])) :
    push less h x = push less' h x :=
  upLoop_eq_of_agree _ hag _

theorem pop_eq_of_agree {h : List α} (hag : Agree less less' h) : pop less h = pop less' h := by
  unfold pop down
  split
  · rfl
  · rw [downLoop_eq_of_agree _ _ (hag.perm (List.swap_perm _ _ _))]

end SliceHeap
