import Zvchain.Common.Prque
import Zvchain.Types.Block
import Zvchain.Lib.Transition

/-!
# Choosing the states to prune (`FullBlockChain.getPruneHeights`, `pruneBlocks`)

In prune mode every block's state root is pushed on the priority queue `triegc` with its height as
priority.  `getPruneHeights` drains the queue from the highest height down, puts back every item
at or above the checkpoint and the items of the first `minSize` distinct heights below it, and
returns the rest; `pruneBlocks` dereferences the returned roots.

Priorities are `int64` and heights `uint64(priority)`.  The queue pops by priority, which orders
the heights below the checkpoint as the priorities when the first item is at or above the
checkpoint, the one case in which the loop runs (`SameSide`).  Over the loop, the items put back
and returned together with the queue left are the queue it started from, and every returned item
lies below the checkpoint with at least `minSize` distinct heights between it and the checkpoint
(`PruneInv`).
-/

namespace Zvchain

open Prque

/-- `TriesInMemory`: `types.EpochLength*4 + 20`. -/
def TriesInMemory : UInt64 := 240 * 4 + 20

variable {α : Type}

/-- The height an item stands for, `uint64(priority)`. -/
def Prque.Item.height (x : Item α) : UInt64 := x.priority.toUInt64

/-- The loop of `getPruneHeights`, for at most `fuel` rounds: the queue left, `backList` and
`cropList`.  `temp` is the set of heights below the checkpoint seen so far and `count` its size. -/
def pruneLoop (cpHeight minSize : UInt64) : ℕ → List (Item α) → List (Item α) → List (Item α) →
    UInt64 → List UInt64 → List (Item α) × List (Item α) × List (Item α)
  | 0, triegc, backList, cropList, _, _ => (triegc, backList, cropList)
  | fuel + 1, triegc, backList, cropList, count, temp =>
    if Empty triegc then (triegc, backList, cropList)
    else
      match Pop triegc with
      | none => (triegc, backList, cropList)
      | some ((root, h), triegc) =>
        if h.toUInt64 ≥ cpHeight then
          pruneLoop cpHeight minSize fuel triegc (backList ++ [⟨root, h⟩]) cropList count temp
        else
          -- a height seen before does not count again
          let fresh := decide (h.toUInt64 ∉ temp)
          let count := if fresh then count + 1 else count
          let temp := if fresh then h.toUInt64 :: temp else temp
          if count ≤ minSize then
            pruneLoop cpHeight minSize fuel triegc (backList ++ [⟨root, h⟩]) cropList count temp
          else
            pruneLoop cpHeight minSize fuel triegc backList (cropList ++ [⟨root, h⟩]) count temp

/-- `FullBlockChain.getPruneHeights`: the items to prune, and the queue after. -/
def getPruneHeights (triegc : List (Item α)) (cpHeight minSize : UInt64) :
    List (Item α) × List (Item α) :=
  if Empty triegc then ([], triegc)
  else if cpHeight ≤ minSize then ([], triegc)
  else
    match Peek triegc with
    | none => ([], triegc)
    | some (_, h) =>
      if h.toUInt64 < cpHeight then ([], triegc)
      else
        let (triegc, backList, cropList) :=
          pruneLoop cpHeight minSize triegc.length triegc [] [] 0 []
        (cropList, backList.foldl (fun triegc v => Push triegc v.value v.priority) triegc)

/-- What `FullBlockChain.pruneBlocks` does to the queue for a block at `height` with state
`root`, and the roots it dereferences, in order, with their heights.  `latestCP` is the height of
the latest checkpoint, if there is one.  The work of the trie database itself (the small-db copy,
the reference, the cap on memory and the persistence) is left out. -/
def pruneBlocks (triegc : List (Item Hash)) (height : UInt64) (root : Hash)
    (latestCP : Option UInt64) : List (Item Hash) × List (UInt64 × Hash) :=
  let triegc := Push triegc root height.toInt64
  match latestCP with
  | none => (triegc, [])
  | some cpHeight =>
    let (items, triegc) := getPruneHeights triegc cpHeight TriesInMemory
    -- the items come highest first, and are dereferenced from the lowest
    (triegc, items.reverse.map fun vl => (vl.priority.toUInt64, vl.value))

/-! ## Heights and priorities -/

/-- `uint64` of an `int64`: the same number, or `2^64` more for a negative one. -/
theorem toNat_height (x : Item α) :
    (x.height.toNat : ℤ) = if 0 ≤ x.priority.toInt then x.priority.toInt
      else x.priority.toInt + 2 ^ 64 := by
  have htoNat : x.height.toNat = x.priority.toBitVec.toNat := by
    simp [Item.height, UInt64.toNat, Int64.toBitVec_toUInt64]
  rw [htoNat, ← Int64.toInt_toBitVec, BitVec.toInt_eq_toNat_cond]
  have := x.priority.toBitVec.isLt
  split_ifs <;> omega

/-- Below the checkpoint, the heights of the items are their priorities shifted by one constant. -/
def SameSide (cpHeight : UInt64) (s : List (Item α)) : Prop :=
  ∃ c : ℤ, ∀ x ∈ s, x.height < cpHeight → (x.height.toNat : ℤ) = x.priority.toInt + c

theorem SameSide.height_le_iff {cpHeight : UInt64} {s : List (Item α)} (hs : SameSide cpHeight s)
    {x y : Item α} (hx : x ∈ s) (hxc : x.height < cpHeight) (hy : y ∈ s)
    (hyc : y.height < cpHeight) : x.height ≤ y.height ↔ x.priority.toInt ≤ y.priority.toInt := by
  obtain ⟨c, hc⟩ := hs
  have ex := hc x hx hxc
  have ey := hc y hy hyc
  rw [UInt64.le_iff_toNat_le]
  omega

/-- When the item of the highest priority is at or above the checkpoint, the items below it
are all of priorities that are not negative, or all of negative ones. -/
theorem sameSide_of_top {cpHeight : UInt64} {s : List (Item α)} {top : Item α}
    (hmax : ∀ y ∈ s, y.priority.toInt ≤ top.priority.toInt) (hcp : cpHeight ≤ top.height) :
    SameSide cpHeight s := by
  have htop := toNat_height top
  have hlt := top.priority.toInt_lt
  rw [UInt64.le_iff_toNat_le] at hcp
  by_cases hc : cpHeight.toNat ≤ 2 ^ 63
  · -- heights below the checkpoint are below `2^63`, so their priorities are not negative
    refine ⟨0, fun x _ hx => ?_⟩
    rw [UInt64.lt_iff_toNat_lt] at hx
    have ex := toNat_height x
    have := x.priority.le_toInt
    split_ifs at ex <;> omega
  · -- the top is at or above `2^63`, so its priority and every lower one is negative
    refine ⟨2 ^ 64, fun x hx _ => ?_⟩
    have ex := toNat_height x
    have := hmax x hx
    split_ifs at htop ex <;> omega

/-! ## The set of heights seen -/

/-- Distinct heights below the checkpoint are fewer than it. -/
theorem length_le_of_lt {temp : List UInt64} {cpHeight : UInt64} (hnd : temp.Nodup)
    (hlt : ∀ t ∈ temp, t < cpHeight) : temp.length ≤ cpHeight.toNat := by
  have hsub : (temp.map UInt64.toNat).Subperm (List.range cpHeight.toNat) :=
    (hnd.map fun _ _ h => UInt64.toNat_inj.mp h).subperm fun n hn => by
      obtain ⟨t, ht, rfl⟩ := List.mem_map.mp hn
      exact List.mem_range.mpr (UInt64.lt_iff_toNat_lt.mp (hlt t ht))
  simpa using hsub.length_le

/-- In a set of heights none of which is below `t`, all but `t` itself are above it. -/
theorem length_filter_lt_add_one {temp : List UInt64} {t : UInt64} (hnd : temp.Nodup)
    (hmem : t ∈ temp) (hge : ∀ u ∈ temp, t ≤ u) :
    (temp.filter fun u => t < u).length + 1 = temp.length := by
  have heq : temp.filter (fun u => t < u) = temp.erase t := by
    rw [hnd.erase_eq_filter]
    refine List.filter_congr fun u hu => ?_
    by_cases h : u = t
    · subst h
      simp
    · have hlt : t < u := UInt64.lt_of_le_of_ne (hge u hu) (Ne.symm h)
      simp [h, hlt]
  rw [heq, List.length_erase_of_mem hmem]
  have := List.length_pos_of_mem hmem
  omega

/-! ## The loop -/

section Loop

variable {triegc0 : List (Item α)} {cpHeight minSize : UInt64}

/-- What the loop of `getPruneHeights` keeps from the queue `triegc0` it started on: the items
put back, the items to prune and the queue left are the queue it started on; `temp` holds
distinct heights below the checkpoint, as many as `count`, none below a height still in the
queue; and every item to prune is below the checkpoint with at least `minSize` heights of `temp`
above it. -/
structure PruneInv (triegc0 : List (Item α)) (cpHeight minSize : UInt64)
    (triegc backList cropList : List (Item α)) (count : UInt64) (temp : List UInt64) : Prop where
  perm : (backList ++ cropList ++ triegc).Perm triegc0
  heap : SliceHeap.IsHeap Less triegc
  nodup : temp.Nodup
  count_eq : count.toNat = temp.length
  seen : ∀ t ∈ temp, t < cpHeight ∧ t ∈ triegc0.map Item.height
  below : ∀ y ∈ triegc, y.height < cpHeight → ∀ t ∈ temp, y.height ≤ t
  crop : ∀ x ∈ cropList, x.height < cpHeight ∧
    minSize.toNat ≤ (temp.filter fun t => x.height < t).length

variable {triegc backList cropList : List (Item α)} {count : UInt64} {temp : List UInt64}

theorem PruneInv.subset (hinv : PruneInv triegc0 cpHeight minSize triegc backList cropList count temp) :
    triegc ⊆ triegc0 :=
  fun _ hy => hinv.perm.mem_iff.mp (List.mem_append_right _ hy)

theorem pruneInv_start (hh : SliceHeap.IsHeap Less triegc0) :
    PruneInv triegc0 cpHeight minSize triegc0 [] [] 0 [] where
  perm := List.Perm.refl _
  heap := hh
  nodup := List.nodup_nil
  count_eq := rfl
  seen := by simp
  below := by simp
  crop := by simp

/-- Moving the popped item to the items put back or to the items to prune keeps them all. -/
theorem perm_of_pop {x : Item α} {rest : List (Item α)} (hpx : (x :: rest).Perm triegc)
    (hperm : (backList ++ cropList ++ triegc).Perm triegc0) :
    (backList ++ [x] ++ cropList ++ rest).Perm triegc0 ∧
      (backList ++ (cropList ++ [x]) ++ rest).Perm triegc0 := by
  have hmid : (backList ++ cropList ++ (x :: rest)).Perm triegc0 :=
    (hpx.append_left _).trans hperm
  constructor
  · refine List.Perm.trans ?_ hmid
    simp only [List.append_assoc, List.singleton_append]
    exact List.Perm.append_left _ List.perm_middle.symm
  · refine List.Perm.trans ?_ hmid
    simp only [List.append_assoc, List.cons_append, List.nil_append]
    exact List.Perm.refl _

/-- A round on an item at or above the checkpoint puts it back. -/
theorem PruneInv.round_high
    (hinv : PruneInv triegc0 cpHeight minSize triegc backList cropList count temp)
    {x : Item α} {rest : List (Item α)} (hrest : SliceHeap.IsHeap Less rest)
    (hpx : (x :: rest).Perm triegc) :
    PruneInv triegc0 cpHeight minSize rest (backList ++ [x]) cropList count temp where
  perm := (perm_of_pop hpx hinv.perm).1
  heap := hrest
  nodup := hinv.nodup
  count_eq := hinv.count_eq
  seen := hinv.seen
  below y hy := hinv.below y (hpx.mem_iff.mp (List.mem_cons_of_mem x hy))
  crop := hinv.crop

/-- Noting the height of an item below the checkpoint, which no height seen is below: the set
stays distinct and counted, and the item's height is in it and below all others. -/
theorem PruneInv.note_height
    (hinv : PruneInv triegc0 cpHeight minSize triegc backList cropList count temp)
    {x : Item α} (hxq : x ∈ triegc) (hx : x.height < cpHeight) :
    let temp' := if decide (x.height ∉ temp) = true then x.height :: temp else temp
    let count' := if decide (x.height ∉ temp) = true then count + 1 else count
    temp'.Nodup ∧ count'.toNat = temp'.length ∧
      (∀ t ∈ temp', t < cpHeight ∧ t ∈ triegc0.map Item.height) ∧ temp.Sublist temp' ∧
      x.height ∈ temp' ∧ ∀ t ∈ temp', x.height ≤ t := by
  intro temp' count'
  have hbelow := hinv.below x hxq hx
  by_cases hm : x.height ∈ temp
  · simp only [temp', count', hm, not_true_eq_false, decide_false, Bool.false_eq_true, if_false]
    exact ⟨hinv.nodup, hinv.count_eq, hinv.seen, List.Sublist.refl _, trivial, hbelow⟩
  · simp only [temp', count', hm, not_false_eq_true, decide_true, if_true]
    have hx0 : x.height ∈ triegc0.map Item.height := List.mem_map_of_mem (hinv.subset hxq)
    have hseen : ∀ t ∈ x.height :: temp, t < cpHeight ∧ t ∈ triegc0.map Item.height := by
      intro t ht
      rcases List.mem_cons.mp ht with rfl | ht
      · exact ⟨hx, hx0⟩
      · exact hinv.seen t ht
    have hnd : (x.height :: temp).Nodup := List.nodup_cons.mpr ⟨hm, hinv.nodup⟩
    -- the distinct heights are fewer than the checkpoint, so the count does not wrap around
    have hbound := length_le_of_lt hnd fun t ht => (hseen t ht).1
    have hcp := cpHeight.toNat_lt
    have hcount := hinv.count_eq
    refine ⟨hnd, ?_, hseen, List.sublist_cons_self _ _, List.mem_cons_self, ?_⟩
    · rw [UInt64.toNat_add, UInt64.toNat_one, hcount, List.length_cons]
      rw [List.length_cons] at hbound
      omega
    · intro t ht
      rcases List.mem_cons.mp ht with rfl | ht
      · exact UInt64.le_refl _
      · exact hbelow t ht

/-- A round on an item below the checkpoint notes its height, then puts it back while at most
`minSize` heights are noted, and prunes it after. -/
theorem PruneInv.round_low (hside : SameSide cpHeight triegc0)
    (hinv : PruneInv triegc0 cpHeight minSize triegc backList cropList count temp)
    {x : Item α} {rest : List (Item α)} (hrest : SliceHeap.IsHeap Less rest)
    (hpx : (x :: rest).Perm triegc) (hmax : ∀ y ∈ triegc, y.priority.toInt ≤ x.priority.toInt)
    (hx : x.height < cpHeight) :
    let temp' := if decide (x.height ∉ temp) = true then x.height :: temp else temp
    let count' := if decide (x.height ∉ temp) = true then count + 1 else count
    (count' ≤ minSize →
      PruneInv triegc0 cpHeight minSize rest (backList ++ [x]) cropList count' temp') ∧
    (¬count' ≤ minSize →
      PruneInv triegc0 cpHeight minSize rest backList (cropList ++ [x]) count' temp') := by
  intro temp' count'
  have hxq : x ∈ triegc := hpx.mem_iff.mp List.mem_cons_self
  obtain ⟨hnd, hcount, hseen, hsub, hmem, hlow⟩ : temp'.Nodup ∧ count'.toNat = temp'.length ∧
      (∀ t ∈ temp', t < cpHeight ∧ t ∈ triegc0.map Item.height) ∧ temp.Sublist temp' ∧
      x.height ∈ temp' ∧ ∀ t ∈ temp', x.height ≤ t := hinv.note_height hxq hx
  have hrq : rest ⊆ triegc := fun y hy => hpx.mem_iff.mp (List.mem_cons_of_mem x hy)
  -- the items left are not above the popped one, so not above any height noted
  have hbelow : ∀ y ∈ rest, y.height < cpHeight → ∀ t ∈ temp', y.height ≤ t := by
    intro y hy hyc t ht
    have hyx : y.height ≤ x.height :=
      (hside.height_le_iff (hinv.subset (hrq hy)) hyc (hinv.subset hxq) hx).mpr (hmax y (hrq hy))
    exact UInt64.le_trans hyx (hlow t ht)
  have hcrop : ∀ z ∈ cropList, z.height < cpHeight ∧
      minSize.toNat ≤ (temp'.filter fun t => z.height < t).length := fun z hz =>
    ⟨(hinv.crop z hz).1, Nat.le_trans (hinv.crop z hz).2 (hsub.filter _).length_le⟩
  refine ⟨fun _ => ⟨(perm_of_pop hpx hinv.perm).1, hrest, hnd, hcount, hseen, hbelow, hcrop⟩,
    fun hle => ⟨(perm_of_pop hpx hinv.perm).2, hrest, hnd, hcount, hseen, hbelow, fun z hz => ?_⟩⟩
  rcases List.mem_append.mp hz with hz | hz
  · exact hcrop z hz
  · -- the heights noted above the pruned one are all but its own
    rw [List.mem_singleton.mp hz]
    have hfilter := length_filter_lt_add_one hnd hmem hlow
    rw [UInt64.le_iff_toNat_le, Nat.not_le] at hle
    exact ⟨hx, by omega⟩

/-- The loop, run with as many rounds as items, empties the queue and keeps `PruneInv`. -/
theorem pruneLoop_spec (hw : Window triegc0) (hside : SameSide cpHeight triegc0) (fuel : ℕ)
    (hinv : PruneInv triegc0 cpHeight minSize triegc backList cropList count temp)
    (hfuel : triegc.length ≤ fuel) :
    ∃ backList' cropList' count' temp',
      pruneLoop cpHeight minSize fuel triegc backList cropList count temp =
        ([], backList', cropList') ∧
      PruneInv triegc0 cpHeight minSize [] backList' cropList' count' temp' := by
  induction fuel generalizing triegc backList cropList count temp with
  | zero =>
    obtain rfl := List.length_eq_zero_iff.mp (Nat.le_zero.mp hfuel)
    exact ⟨_, _, _, _, rfl, hinv⟩
  | succ fuel ih =>
    by_cases hne : triegc = []
    · subst hne
      exact ⟨_, _, _, _, rfl, hinv⟩
    obtain ⟨x, rest, hpop, hrest, hpx, hmax⟩ :=
      Prque.pop_spec hinv.heap (hw.subset hinv.subset) hne
    have hlen : rest.length ≤ fuel := by
      have := hpx.length_eq
      rw [List.length_cons] at this
      omega
    rw [pruneLoop, if_neg (by simp [Prque.Empty, hne]), hpop]
    dsimp only
    have hxh : x.priority.toUInt64 = x.height := rfl
    rw [hxh]
    by_cases hx : x.height ≥ cpHeight
    · rw [if_pos hx]
      exact ih (hinv.round_high hrest hpx) hlen
    · rw [if_neg hx]
      have hround := hinv.round_low hside hrest hpx hmax (UInt64.not_le.mp hx)
      by_cases hle : (if decide (x.height ∉ temp) = true then count + 1 else count) ≤ minSize
      · rw [if_pos hle]
        exact ih (hround.1 hle) hlen
      · rw [if_neg hle]
        exact ih (hround.2 hle) hlen

/-- After the loop, every item to prune is below the checkpoint with at least `minSize` distinct
heights of the queue between it and the checkpoint. -/
theorem PruneInv.crop_spec
    (hinv : PruneInv triegc0 cpHeight minSize triegc backList cropList count temp) :
    ∀ x ∈ cropList, x.height < cpHeight ∧ minSize.toNat ≤
      ((triegc0.map Item.height).filter fun t => x.height < t ∧ t < cpHeight).dedup.length := by
  intro x hx
  obtain ⟨hxc, hmin⟩ := hinv.crop x hx
  refine ⟨hxc, Nat.le_trans hmin ((hinv.nodup.filter _).subperm fun t ht => ?_).length_le⟩
  obtain ⟨ht, hxt⟩ := List.mem_filter.mp ht
  obtain ⟨htc, ht0⟩ := hinv.seen t ht
  exact List.mem_dedup.mpr (List.mem_filter.mpr ⟨ht0, by simpa [htc] using hxt⟩)

end Loop

/-! ## What `getPruneHeights` returns -/

/-- On a queue whose priorities stay within `2^63` of each other, `getPruneHeights` returns only
items below the checkpoint with at least `minSize` distinct heights of the queue between them and
the checkpoint; what it returns and the queue it leaves are the queue it was given, and the queue
left is a heap. -/
theorem getPruneHeights_spec {triegc : List (Item α)} (hh : SliceHeap.IsHeap Less triegc)
    (hw : Window triegc) (cpHeight minSize : UInt64) :
    ((getPruneHeights triegc cpHeight minSize).1 ++
        (getPruneHeights triegc cpHeight minSize).2).Perm triegc ∧
      SliceHeap.IsHeap Less (getPruneHeights triegc cpHeight minSize).2 ∧
      ∀ x ∈ (getPruneHeights triegc cpHeight minSize).1, x.height < cpHeight ∧
        minSize.toNat ≤
          ((triegc.map Item.height).filter fun t => x.height < t ∧ t < cpHeight).dedup.length := by
  -- the early returns leave the queue as it was
  have hkeep : ([] ++ triegc).Perm triegc ∧ SliceHeap.IsHeap Less triegc ∧
      ∀ x ∈ ([] : List (Item α)), x.height < cpHeight ∧ minSize.toNat ≤
        ((triegc.map Item.height).filter fun t => x.height < t ∧ t < cpHeight).dedup.length :=
    ⟨List.Perm.refl _, hh, by simp⟩
  unfold getPruneHeights
  split_ifs with hE hcp
  · exact hkeep
  · exact hkeep
  · split
    · exact hkeep
    · next v p hpeek =>
      split_ifs with htop
      · exact hkeep
      · obtain ⟨top, -, rfl, hmax⟩ := Prque.peek_spec hh hw hpeek
        have hside := sameSide_of_top hmax (UInt64.not_lt.mp htop)
        obtain ⟨back, crop, count, temp, hloop, hinv⟩ :=
          pruneLoop_spec hw hside triegc.length (pruneInv_start hh) (Nat.le_refl _)
        rw [hloop]
        dsimp only
        have hperm : (back ++ crop).Perm triegc := by simpa using hinv.perm
        have hback : back ⊆ triegc := fun y hy => hperm.mem_iff.mp (List.mem_append_left _ hy)
        obtain ⟨hh', hperm'⟩ := @Prque.foldl_push_spec _ back [] SliceHeap.isHeap_nil
          (hw.subset (by simpa using hback))
        refine ⟨?_, hh', hinv.crop_spec⟩
        rw [List.append_nil] at hperm'
        exact ((hperm'.trans (List.reverse_perm back)).append_left crop).trans
          (List.perm_append_comm.trans hperm)

/-- A queue of seven heights, cut at the checkpoint `5` keeping one height below it. -/
theorem getPruneHeights_at_five_one :
    let triegc : List (Item ℕ) := [⟨0, 7⟩, ⟨1, 5⟩, ⟨2, 4⟩, ⟨3, 3⟩, ⟨4, 3⟩, ⟨5, 2⟩, ⟨6, 1⟩]
    SliceHeap.IsHeap Less triegc ∧ Window triegc ∧
      ((getPruneHeights triegc 5 1).1 ++ (getPruneHeights triegc 5 1).2).Perm triegc ∧
      SliceHeap.IsHeap Less (getPruneHeights triegc 5 1).2 ∧
      ∀ x ∈ (getPruneHeights triegc 5 1).1, x.height < 5 ∧
        (1 : UInt64).toNat ≤ ((triegc.map Item.height).filter fun t => x.height < t ∧ t < 5).dedup.length := by
  intro triegc
  have hh : SliceHeap.IsHeap Less triegc := by
    intro c hc hcn
    have h7 : c < 7 := hcn
    interval_cases c <;> decide
  have hw : Window triegc := by
    unfold Window
    decide
  exact ⟨hh, hw, getPruneHeights_spec hh hw 5 1⟩

/-! ## Over a run of `pruneBlocks` -/

/-- What the queue keeps over a run: a heap whose priorities are not negative, so within `2^63`
of each other. -/
structure TrieGCInv (triegc : List (Item Hash)) : Prop where
  heap : SliceHeap.IsHeap Less triegc
  nonneg : ∀ x ∈ triegc, 0 ≤ x.priority.toInt

/-- One block of a run: it pushes its state root at its height, below `2^63`, and prunes against
the latest checkpoint of the moment, if there is one. -/
def PruneStep (triegc triegc' : List (Item Hash)) : Prop :=
  ∃ height root latestCP, height.toNat < 2 ^ 63 ∧
    (pruneBlocks triegc height root latestCP).1 = triegc'

theorem toInt_toInt64 {height : UInt64} (h : height.toNat < 2 ^ 63) :
    height.toInt64.toInt = height.toNat := by
  rw [← Int64.toInt_toBitVec]
  have hbv : height.toInt64.toBitVec = height.toBitVec := rfl
  rw [hbv, BitVec.toInt_eq_toNat_cond, UInt64.toNat_toBitVec, if_pos (by omega)]

theorem TrieGCInv.push {triegc : List (Item Hash)} (hinv : TrieGCInv triegc) {height : UInt64}
    (hheight : height.toNat < 2 ^ 63) (root : Hash) :
    TrieGCInv (Push triegc root height.toInt64) ∧
      (Push triegc root height.toInt64).Perm (⟨root, height.toInt64⟩ :: triegc) := by
  have hnonneg : ∀ x ∈ (⟨root, height.toInt64⟩ :: triegc : List (Item Hash)),
      0 ≤ x.priority.toInt := by
    intro x hx
    rcases List.mem_cons.mp hx with rfl | hx
    · rw [toInt_toInt64 hheight]
      omega
    · exact hinv.nonneg x hx
  obtain ⟨hh, hperm⟩ := Prque.push_spec hinv.heap root height.toInt64 (window_of_nonneg hnonneg)
  exact ⟨⟨hh, fun x hx => hnonneg x (hperm.mem_iff.mp hx)⟩, hperm⟩

/-- `pruneBlocks` keeps the queue's invariant, and dereferences only roots of the queue below the
checkpoint with at least `TriesInMemory` distinct heights of the queue between them and it. -/
theorem pruneBlocks_spec {triegc : List (Item Hash)} (hinv : TrieGCInv triegc) {height : UInt64}
    (hheight : height.toNat < 2 ^ 63) (root : Hash) (latestCP : Option UInt64) :
    TrieGCInv (pruneBlocks triegc height root latestCP).1 ∧
      ∀ d ∈ (pruneBlocks triegc height root latestCP).2, ∃ cpHeight, latestCP = some cpHeight ∧
        d.1 < cpHeight ∧ TriesInMemory.toNat ≤
          (((Push triegc root height.toInt64).map Item.height).filter
            fun t => d.1 < t ∧ t < cpHeight).dedup.length ∧
        ∃ x ∈ Push triegc root height.toInt64, x.value = d.2 ∧ x.height = d.1 := by
  obtain ⟨hpush, -⟩ := hinv.push hheight root
  cases latestCP with
  | none => exact ⟨hpush, by simp [pruneBlocks]⟩
  | some cpHeight =>
    obtain ⟨hperm, hh, hcrop⟩ :=
      getPruneHeights_spec hpush.heap (window_of_nonneg hpush.nonneg) cpHeight TriesInMemory
    have hsub : (getPruneHeights (Push triegc root height.toInt64) cpHeight TriesInMemory).2 ⊆
        Push triegc root height.toInt64 :=
      fun y hy => hperm.mem_iff.mp (List.mem_append_right _ hy)
    refine ⟨⟨hh, fun x hx => hpush.nonneg x (hsub hx)⟩, fun d hd => ?_⟩
    simp only [pruneBlocks, List.mem_map, List.mem_reverse] at hd
    obtain ⟨x, hx, rfl⟩ := hd
    obtain ⟨hxc, hmin⟩ := hcrop x hx
    exact ⟨cpHeight, rfl, hxc, hmin,
      x, hperm.mem_iff.mp (List.mem_append_left _ hx), rfl, rfl⟩

/-- Every queue of a run from the empty queue is a heap of priorities that are not negative. -/
theorem reachable_trieGCInv {triegc : List (Item Hash)}
    (hr : Transition.Reachable (fun q => q = []) PruneStep triegc) : TrieGCInv triegc := by
  refine Transition.Reachable.induction (fun q hq => ?_) (fun q q' hq hstep => ?_) hr
  · subst hq
    exact ⟨SliceHeap.isHeap_nil, by simp⟩
  · obtain ⟨height, root, latestCP, hheight, rfl⟩ := hstep
    exact (pruneBlocks_spec hq hheight root latestCP).1

/-- Over every run from the empty queue, the next block's `pruneBlocks`, at a height below `2^63`,
keeps the queue a heap of priorities that are not negative, and dereferences only roots of the
queue below the latest checkpoint with at least `TriesInMemory` distinct heights of the queue
between them and it. -/
theorem reachable_pruneBlocks {triegc : List (Item Hash)}
    (hr : Transition.Reachable (fun q => q = []) PruneStep triegc) {height : UInt64}
    (hheight : height.toNat < 2 ^ 63) (root : Hash) (latestCP : Option UInt64) :
    TrieGCInv (pruneBlocks triegc height root latestCP).1 ∧
      ∀ d ∈ (pruneBlocks triegc height root latestCP).2, ∃ cpHeight, latestCP = some cpHeight ∧
        d.1 < cpHeight ∧ TriesInMemory.toNat ≤
          (((Push triegc root height.toInt64).map Item.height).filter
            fun t => d.1 < t ∧ t < cpHeight).dedup.length ∧
        ∃ x ∈ Push triegc root height.toInt64, x.value = d.2 ∧ x.height = d.1 :=
  pruneBlocks_spec (reachable_trieGCInv hr) hheight root latestCP

/-- The second block of a run, at height 7 with the checkpoint at 6: the queue stays a heap, and
nothing is dereferenced that the checkpoint does not allow. -/
theorem pruneBlocks_second_block :
    let q : List (Item Hash) := (pruneBlocks [] 5 (BytesToHash [1]) none).1
    TrieGCInv (pruneBlocks q 7 (BytesToHash [2]) (some 6)).1 ∧
      ∀ d ∈ (pruneBlocks q 7 (BytesToHash [2]) (some 6)).2, ∃ cpHeight, some 6 = some cpHeight ∧
        d.1 < cpHeight ∧ TriesInMemory.toNat ≤
          (((Push q (BytesToHash [2]) (7 : UInt64).toInt64).map Item.height).filter
            fun t => d.1 < t ∧ t < cpHeight).dedup.length ∧
        ∃ x ∈ Push q (BytesToHash [2]) (7 : UInt64).toInt64, x.value = d.2 ∧ x.height = d.1 := by
  intro q
  have hstep : PruneStep [] q := ⟨5, BytesToHash [1], none, by decide, rfl⟩
  have hq : Transition.Reachable (fun q => q = []) PruneStep q :=
    .step (.init rfl) hstep
  exact reachable_pruneBlocks hq (by decide) (BytesToHash [2]) (some 6)

end Zvchain
