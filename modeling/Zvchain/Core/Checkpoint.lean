import Zvchain.Types.Block
import Zvchain.Types.Epoch

/-!
# The checkpoint of a chain slice (`core/checkpoint.go`)

A checkpoint is the highest block at which, counting back within one epoch, a threshold of the
epoch's groups have proposed.  `checkPointOf` finds it on a slice of blocks, as the fork processor
does with a peer's slice: it first drops the blocks of the last `cpBlockBuffer` heights, then
scans back.  The drop keeps the blocks up to the last one at or below `top.Height - cpBlockBuffer`;
on a slice with no such block it keeps them all, so that the checkpoint may be one of the last
`cpBlockBuffer` heights (`checkPointOf_within_buffer`).
-/

namespace Zvchain

/-- The least number of groups an epoch needs for a checkpoint. -/
def groupNumMin : ℕ := 10

def cpBlockBuffer : UInt64 := 20

/-- `cpGroupThreshold`: `math.Ceil(float64(groupNum) * groupThreshold)` with `groupThreshold` 0.7.
For group numbers below `4 * 10^14` the float product lies within `0.04` of `0.7 * groupNum`
(the error of the constant `0.7` plus half a unit of the product), and `0.7 * groupNum` is an
integer or at least `0.1` above one, so the two ceilings agree.  Above that range they can
differ: at `groupNum = 1018351719088313` the float product rounds down to an integer and Go's
threshold is one lower than this one. -/
def cpGroupThreshold (groupNum : ℕ) : ℕ := (7 * groupNum + 9) / 10

/-- `cpContext`: the epoch, the index of each activated group by its seed, and the threshold. -/
structure CpContext where
  epoch : Epoch
  groupIndexes : AList fun _ : Hash => ℕ
  threshold : ℕ

namespace CpContext

def groupSize (ctx : CpContext) : ℕ := ctx.groupIndexes.entries.length

def groupsEnough (ctx : CpContext) : Bool := ctx.groupSize ≥ groupNumMin

end CpContext

/-- `newCpContext`, from the seeds of the groups activated at the start of the epoch. -/
def newCpContext (ep : Epoch) (groups : List Hash) : CpContext :=
  let groupIndexes := groups.zipIdx.foldl (fun m g => m.insert g.1 g.2) ∅
  ⟨ep, groupIndexes, cpGroupThreshold groupIndexes.entries.length⟩

section CheckPointOf

-- the seeds of the groups `GetActivatedGroupsAt` returns at a height
variable (groupsAt : UInt64 → List Hash)

/-- The loop of `checkPointOf` that drops the last heights: from the index `i`, back to the last
block at or below `firstHeight`, keeping the slice up to it; the whole slice when there is none. -/
def trimLoop (firstHeight : UInt64) (chainSlice : List BlockHeader) : ℕ → List BlockHeader
  | 0 => chainSlice
  | i + 1 =>
    match chainSlice[i]? with
    | some bh => if bh.height ≤ firstHeight then chainSlice.take (i + 1)
      else trimLoop firstHeight chainSlice i
    | none => trimLoop firstHeight chainSlice i

/-- The scan of `checkPointOf`, over the blocks newest first: in the epoch of the context, each
block's group votes while the epoch has enough groups, and the block at which the votes reach the
threshold is the checkpoint; a block of another epoch starts that epoch's context with its vote. -/
def scanLoop : List BlockHeader → Epoch → CpContext → List Hash → Option BlockHeader
  | [], _, _, _ => none
  | bh :: rest, ep, ctx, votes =>
    if (EpochAt bh.height).Equal ep then
      if !ctx.groupsEnough then scanLoop rest ep ctx votes
      else
        let votes := votes.insert bh.group
        if votes.length ≥ ctx.threshold then some bh
        else scanLoop rest ep ctx votes
    else
      let ep := EpochAt bh.height
      scanLoop rest ep (newCpContext ep (groupsAt ep.Start)) [bh.group]

/-- `cpChecker.checkPointOf` over the headers of a chain slice, oldest first.  The slice after the
drop is never empty; its `none` case stands for Go's index out of range, which is not reached. -/
def checkPointOf (chainSlice : List BlockHeader) : Option BlockHeader :=
  match chainSlice.getLast? with
  | none => none
  | some top =>
    if top.height ≤ cpBlockBuffer then none
    else
      let firstHeight := top.height - cpBlockBuffer
      let chainSlice := trimLoop firstHeight chainSlice chainSlice.length
      match chainSlice.getLast? with
      | none => none
      | some top =>
        let ep := EpochAt top.height
        scanLoop groupsAt chainSlice.reverse ep (newCpContext ep (groupsAt ep.Start)) []

end CheckPointOf

/-! ## The drop of the last heights -/

theorem Epoch.equal_self (e : Epoch) : e.Equal e = true := by
  cases e <;> simp [Epoch.Equal]

section Trim

variable {firstHeight : UInt64} {chainSlice : List BlockHeader}

/-- One round of the drop. -/
theorem trimLoop_succ (i : ℕ) : trimLoop firstHeight chainSlice (i + 1) =
    match chainSlice[i]? with
    | some bh =>
      if bh.height ≤ firstHeight then chainSlice.take (i + 1) else trimLoop firstHeight chainSlice i
    | none => trimLoop firstHeight chainSlice i :=
  rfl

/-- On a slice whose blocks are all above `firstHeight`, the drop keeps the whole slice. -/
theorem trimLoop_of_above (habove : ∀ b ∈ chainSlice, firstHeight < b.height) (i : ℕ) :
    trimLoop firstHeight chainSlice i = chainSlice := by
  induction i with
  | zero => rfl
  | succ i ih =>
    rw [trimLoop_succ]
    cases hi : chainSlice[i]? with
    | none => exact ih
    | some bh =>
      have hbh := habove bh (List.mem_of_getElem? hi)
      dsimp only
      rw [if_neg (UInt64.not_le.mpr hbh)]
      exact ih

/-- When a block below index `i` is at or below `firstHeight`, the drop keeps the slice up to the
last such block. -/
theorem trimLoop_of_exists {i : ℕ}
    (h : ∃ j < i, ∃ bh, chainSlice[j]? = some bh ∧ bh.height ≤ firstHeight) :
    ∃ j < i, ∃ bh, chainSlice[j]? = some bh ∧ bh.height ≤ firstHeight ∧
      trimLoop firstHeight chainSlice i = chainSlice.take (j + 1) := by
  induction i with
  | zero => obtain ⟨j, hj, -⟩ := h; omega
  | succ i ih =>
    rw [trimLoop_succ]
    cases hi : chainSlice[i]? with
    | none =>
      -- the block found is below `i`
      obtain ⟨j, hj, bh, hbh, hle⟩ := h
      have hji : j ≠ i := fun hji => by rw [hji, hi] at hbh; cases hbh
      obtain ⟨j', hj', bh', h'⟩ := ih ⟨j, by omega, bh, hbh, hle⟩
      exact ⟨j', by omega, bh', h'⟩
    | some b =>
      dsimp only
      by_cases hb : b.height ≤ firstHeight
      · rw [if_pos hb]
        exact ⟨i, by omega, b, hi, hb, rfl⟩
      · rw [if_neg hb]
        obtain ⟨j, hj, bh, hbh, hle⟩ := h
        have hji : j ≠ i := fun hji => by
          rw [hji, hi] at hbh
          cases hbh
          exact hb hle
        obtain ⟨j', hj', bh', h'⟩ := ih ⟨j, by omega, bh, hbh, hle⟩
        exact ⟨j', by omega, bh', h'⟩

/-- The drop keeps a prefix of the slice. -/
theorem trimLoop_startsSlice (i : ℕ) : trimLoop firstHeight chainSlice i <+: chainSlice := by
  induction i with
  | zero => exact List.prefix_refl _
  | succ i ih =>
    rw [trimLoop_succ]
    cases chainSlice[i]? with
    | none => exact ih
    | some bh =>
      dsimp only
      split_ifs
      · exact List.take_prefix _ _
      · exact ih

end Trim

/-! ## The scan -/

section Scan

variable (groupsAt : UInt64 → List Hash)

/-- One block of the scan. -/
theorem scanLoop_cons (bh : BlockHeader) (rest : List BlockHeader) (ep : Epoch) (ctx : CpContext)
    (votes : List Hash) : scanLoop groupsAt (bh :: rest) ep ctx votes =
      if (EpochAt bh.height).Equal ep then
        if !ctx.groupsEnough then scanLoop groupsAt rest ep ctx votes
        else if (votes.insert bh.group).length ≥ ctx.threshold then some bh
          else scanLoop groupsAt rest ep ctx (votes.insert bh.group)
      else scanLoop groupsAt rest (EpochAt bh.height)
        (newCpContext (EpochAt bh.height) (groupsAt (EpochAt bh.height).Start)) [bh.group] :=
  rfl

/-- The scan returns one of the blocks it scans. -/
theorem scanLoop_mem {l : List BlockHeader} {ep : Epoch} {ctx : CpContext} {votes : List Hash}
    {bh : BlockHeader} (h : scanLoop groupsAt l ep ctx votes = some bh) : bh ∈ l := by
  induction l generalizing ep ctx votes with
  | nil => cases h
  | cons b rest ih =>
    rw [scanLoop_cons] at h
    split_ifs at h with hep _ hreach
    · exact List.mem_cons_of_mem b (ih h)
    · cases h
      exact List.mem_cons_self
    · exact List.mem_cons_of_mem b (ih h)
    · exact List.mem_cons_of_mem b (ih h)

theorem toFinset_insert_eq (votes : List Hash) (g : Hash) :
    (votes.insert g).toFinset = insert g votes.toFinset := by
  ext x
  simp [List.mem_insert_iff]

/-- Within the epoch of a context with enough groups, the scan finds a checkpoint once the
blocks' groups and the votes so far reach the threshold. -/
theorem scanLoop_some {l : List BlockHeader} {ep : Epoch} {ctx : CpContext} {votes : List Hash}
    (hepoch : ∀ b ∈ l, EpochAt b.height = ep) (henough : ctx.groupsEnough = true)
    (hnodup : votes.Nodup) (hbelow : votes.length < ctx.threshold)
    (hvotes : ctx.threshold ≤ (votes.toFinset ∪ (l.map (·.group)).toFinset).card) :
    ∃ bh ∈ l, scanLoop groupsAt l ep ctx votes = some bh := by
  induction l generalizing votes with
  | nil =>
    simp only [List.map_nil, List.toFinset_nil, Finset.union_empty,
      List.toFinset_card_of_nodup hnodup] at hvotes
    omega
  | cons b rest ih =>
    have hb : (EpochAt b.height).Equal ep = true := by
      rw [hepoch b List.mem_cons_self]
      exact Epoch.equal_self ep
    rw [scanLoop_cons, if_pos hb, henough]
    simp only [Bool.not_true, Bool.false_eq_true, if_false]
    by_cases hreach : ctx.threshold ≤ (votes.insert b.group).length
    · exact ⟨b, List.mem_cons_self, by rw [if_pos hreach]⟩
    · rw [if_neg hreach]
      -- the vote of `b` moves from the blocks to the votes
      have hvotes' : ctx.threshold ≤ ((votes.insert b.group).toFinset ∪
          (rest.map (·.group)).toFinset).card := by
        rw [toFinset_insert_eq, Finset.insert_union]
        simpa [Finset.union_insert] using hvotes
      obtain ⟨bh, hbh, h⟩ := ih (fun x hx => hepoch x (List.mem_cons_of_mem b hx))
        hnodup.insert (by omega) hvotes'
      exact ⟨bh, List.mem_cons_of_mem b hbh, h⟩

end Scan

/-! ## The checkpoint of a slice -/

/-- A context with enough groups needs at least one vote. -/
theorem threshold_pos_of_groupsEnough {ep : Epoch} {groups : List Hash}
    (h : (newCpContext ep groups).groupsEnough = true) : 0 < (newCpContext ep groups).threshold := by
  simp only [newCpContext, CpContext.groupsEnough, CpContext.groupSize, cpGroupThreshold,
    groupNumMin] at h ⊢
  have := of_decide_eq_true h
  omega

section CheckPoint

variable {groupsAt : UInt64 → List Hash} {chainSlice : List BlockHeader}

/-- What `checkPointOf` does when it returns a block: the slice is above the buffer, and the block
is the scan's over the slice the drop keeps. -/
theorem checkPointOf_some_cases {bh : BlockHeader} (h : checkPointOf groupsAt chainSlice = some bh) :
    ∃ top, chainSlice.getLast? = some top ∧ cpBlockBuffer < top.height ∧ ∃ top',
      (trimLoop (top.height - cpBlockBuffer) chainSlice chainSlice.length).getLast? = some top' ∧
      scanLoop groupsAt (trimLoop (top.height - cpBlockBuffer) chainSlice chainSlice.length).reverse
        (EpochAt top'.height) (newCpContext (EpochAt top'.height) (groupsAt (EpochAt top'.height).Start))
        [] = some bh := by
  unfold checkPointOf at h
  cases htop : chainSlice.getLast? with
  | none =>
    rw [htop] at h
    cases h
  | some top =>
    rw [htop] at h
    dsimp only at h
    split_ifs at h with hbuf
    cases htop' : (trimLoop (top.height - cpBlockBuffer) chainSlice chainSlice.length).getLast? with
    | none =>
      rw [htop'] at h
      cases h
    | some top' =>
      rw [htop'] at h
      exact ⟨top, rfl, UInt64.not_le.mp hbuf, top', htop', h⟩

/-- `checkPointOf` returns one of the slice's blocks. -/
theorem checkPointOf_mem {bh : BlockHeader} (h : checkPointOf groupsAt chainSlice = some bh) :
    bh ∈ chainSlice := by
  obtain ⟨top, -, -, top', -, hscan⟩ := checkPointOf_some_cases h
  exact (trimLoop_startsSlice _).subset (List.mem_reverse.mp (scanLoop_mem groupsAt hscan))

/-- On a slice of increasing heights with a block at or below `top.Height - cpBlockBuffer`, the
checkpoint is at or below it. -/
theorem checkPointOf_le_buffer (hsorted : chainSlice.Pairwise fun a b => a.height < b.height)
    {top : BlockHeader} (htop : chainSlice.getLast? = some top)
    (hbelow : ∃ b ∈ chainSlice, b.height ≤ top.height - cpBlockBuffer) {bh : BlockHeader}
    (h : checkPointOf groupsAt chainSlice = some bh) : bh.height ≤ top.height - cpBlockBuffer := by
  obtain ⟨top₀, htop₀, -, top', -, hscan⟩ := checkPointOf_some_cases h
  rw [htop] at htop₀
  cases htop₀
  obtain ⟨b, hb, hble⟩ := hbelow
  obtain ⟨i, hi, rfl⟩ := List.getElem_of_mem hb
  have hex : ∃ j < chainSlice.length, ∃ b, chainSlice[j]? = some b ∧
      b.height ≤ top.height - cpBlockBuffer := ⟨i, hi, _, List.getElem?_eq_getElem hi, hble⟩
  obtain ⟨j, -, bj, hbj, hjle, htrim⟩ := trimLoop_of_exists hex
  have hmem := List.mem_reverse.mp (scanLoop_mem groupsAt hscan)
  rw [htrim] at hmem
  -- the blocks kept are those up to the `j`-th, no higher than it
  obtain ⟨k, hk, rfl⟩ := List.getElem_of_mem hmem
  obtain ⟨hj, rfl⟩ : ∃ hj : j < chainSlice.length, chainSlice[j] = bj :=
    List.getElem?_eq_some_iff.mp hbj
  rw [List.getElem_take]
  rw [List.length_take] at hk
  rcases Nat.lt_or_ge k j with hkj | hkj
  · exact UInt64.le_of_lt (UInt64.lt_of_lt_of_le
      (List.pairwise_iff_getElem.mp hsorted k j (by omega) hj hkj) hjle)
  · have : k = j := by omega
    subst this
    exact hjle

/-- The checkpoint is a block of the slice, and on a slice of increasing heights with a block at or
below `top.Height - cpBlockBuffer` it is at or below that bound too. -/
theorem checkPointOf_mem_le_buffer {bh : BlockHeader}
    (h : checkPointOf groupsAt chainSlice = some bh) :
    bh ∈ chainSlice ∧ ∀ top, chainSlice.getLast? = some top →
      chainSlice.Pairwise (fun a b => a.height < b.height) →
      (∃ b ∈ chainSlice, b.height ≤ top.height - cpBlockBuffer) →
        bh.height ≤ top.height - cpBlockBuffer :=
  ⟨checkPointOf_mem h, fun _ htop hsorted hbelow => checkPointOf_le_buffer hsorted htop hbelow h⟩

/-- Seven blocks at heights 580 to 586 from seven of the ten groups of the third epoch, and a block
at 606: the checkpoint is the block at 580, below `606 - cpBlockBuffer`. -/
theorem checkPointOf_eight_blocks :
    let groupsAt : UInt64 → List Hash := fun h =>
      if h < 2 * EpochLength then [BytesToHash []]
      else (List.range 10).map fun i => BytesToHash [i.toUInt8]
    let block : UInt8 → UInt64 → BlockHeader := fun i h =>
      ⟨BytesToHash [i], h, BytesToHash [], [], 0, [], BytesToHash [i % 7]⟩
    let chainSlice : List BlockHeader :=
      [block 0 580, block 1 581, block 2 582, block 3 583, block 4 584, block 5 585, block 6 586,
        block 7 606]
    checkPointOf groupsAt chainSlice = some (block 0 580) ∧ block 0 580 ∈ chainSlice ∧
      (block 0 580).height ≤ 606 - cpBlockBuffer := by
  intro groupsAt block chainSlice
  have hcp : checkPointOf groupsAt chainSlice = some (block 0 580) := by decide
  obtain ⟨hmem, hle⟩ := checkPointOf_mem_le_buffer hcp
  exact ⟨hcp, hmem, hle (block 7 606) (by decide) (by decide) ⟨block 6 586, by decide, by decide⟩⟩

/-- On a slice none of whose blocks is at or below `top.Height - cpBlockBuffer`, all in one epoch
with enough activated groups and with blocks of at least the threshold of groups, `checkPointOf`
returns a block of the slice above `top.Height - cpBlockBuffer`. -/
theorem checkPointOf_within_buffer {top : BlockHeader} (htop : chainSlice.getLast? = some top)
    (hbuf : cpBlockBuffer < top.height)
    (habove : ∀ b ∈ chainSlice, top.height - cpBlockBuffer < b.height)
    (hepoch : ∀ b ∈ chainSlice, EpochAt b.height = EpochAt top.height)
    (henough : (newCpContext (EpochAt top.height)
      (groupsAt (EpochAt top.height).Start)).groupsEnough = true)
    (hvotes : (newCpContext (EpochAt top.height) (groupsAt (EpochAt top.height).Start)).threshold ≤
      (chainSlice.map (·.group)).toFinset.card) :
    ∃ bh ∈ chainSlice, checkPointOf groupsAt chainSlice = some bh ∧
      top.height - cpBlockBuffer < bh.height := by
  have hnil : ([] : List Hash).Nodup := List.nodup_nil
  have hscan := scanLoop_some groupsAt (l := chainSlice.reverse)
    (fun b hb => hepoch b (List.mem_reverse.mp hb)) henough hnil
    (threshold_pos_of_groupsEnough henough) (by simpa using hvotes)
  obtain ⟨bh, hbh, heq⟩ := hscan
  have hbh := List.mem_reverse.mp hbh
  refine ⟨bh, hbh, ?_, habove bh hbh⟩
  rw [checkPointOf, htop]
  dsimp only
  rw [if_neg (UInt64.not_le.mpr hbuf), trimLoop_of_above habove, htop]
  exact heq

/-- Seven blocks at heights 580 to 586, in the third epoch, from seven of the ten groups activated
at its start (before it only the genesis group is): the checkpoint is one of them, above
`586 - cpBlockBuffer`. -/
theorem checkPointOf_seven_blocks :
    let groupsAt : UInt64 → List Hash := fun h =>
      if h < 2 * EpochLength then [BytesToHash []]
      else (List.range 10).map fun i => BytesToHash [i.toUInt8]
    let chainSlice : List BlockHeader := (List.range 7).map fun i =>
      ⟨BytesToHash [i.toUInt8], 580 + i.toUInt64, BytesToHash [], [], 0, [], BytesToHash [i.toUInt8]⟩
    ∃ bh ∈ chainSlice, checkPointOf groupsAt chainSlice = some bh ∧
      586 - cpBlockBuffer < bh.height := by
  intro groupsAt chainSlice
  have htop : chainSlice.getLast? =
      some ⟨BytesToHash [6], 586, BytesToHash [], [], 0, [], BytesToHash [6]⟩ := by decide
  exact checkPointOf_within_buffer htop (by decide) (by decide) (by decide) (by decide) (by decide)

end CheckPoint

end Zvchain

