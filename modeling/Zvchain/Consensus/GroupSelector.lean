import Zvchain.Types.Block
import Zvchain.Core.GroupPool
import Zvchain.Lib.GoMap
import Zvchain.Lib.Outcome

/-!
# Group selection and skip counts (`consensus/logical/group_selector.go`, `core/group`)

The group that verifies the block at a height is drawn among the working groups by a random hash:
`doSelect` hashes the parent's `Random` once per height from the parent to the height
(`calcRandomHash`).  When heights are skipped, `groupSkipCountsBetween` counts for each group the
heights of the gap it was drawn for, advancing one running hash a height instead of recomputing
it; `UpdateGroupSkipCounts` then clears the count of the block's own group and adds the gap's
counts to the stored ones, which `getWorkGroupSeedsAt` reads back an epoch later to leave out
groups that were skipped too often.

1. The running hash is the recomputed one (`calcRandomLoop_succ_succ`, `skipLoop_eq`), so the
   counts are the number of heights of the gap each group is drawn for, a group that is never drawn
   left out (`groupSkipCountsBetween_eq`, `lookup_tally`).
2. Over a chain, clearing then adding stores for each group the number of skipped heights it was
   drawn for since the gap before the last block it produced (`sinceLast`), while the counts stay
   below `2 ^ 16` (`skipCounts_chain`).

The selection reads the chain through the reader interface `gr`; the hash is any function
`Data2CommonHash`, and `Random` is the header's field of that name, which the block model leaves
out.
-/

namespace Zvchain

namespace GroupSelector

def maxActivatedGroupSkipCounts : UInt16 := 10

/-- `skipCounts`: the count of each group seed. -/
abbrev skipCounts := AList fun _ : Hash => UInt16

def count (sc : skipCounts) (seed : Hash) : UInt16 :=
  match sc.lookup seed with
  | some v => v
  | none => 0

def addCount (sc : skipCounts) (seed : Hash) (delta : UInt16) : skipCounts :=
  match sc.lookup seed with
  | some v => sc.insert seed (v + delta)
  | none => sc.insert seed delta

theorem lookup_addCount (sc : skipCounts) (seed g : Hash) (delta : UInt16) :
    (addCount sc seed delta).lookup g = if g = seed then some (count sc seed + delta) else sc.lookup g := by
  unfold addCount count
  split_ifs with hg
  · subst hg
    cases sc.lookup g <;> simp
  · cases sc.lookup seed <;> simp [AList.lookup_insert_ne hg]

theorem count_addCount (sc : skipCounts) (seed g : Hash) (delta : UInt16) :
    count (addCount sc seed delta) g = count sc g + if g = seed then delta else 0 := by
  unfold count
  rw [lookup_addCount]
  split_ifs with hg
  · subst hg
    simp [count]
  · simp

/-- A lookup is the count where the seed has one. -/
theorem lookup_eq_count (sc : skipCounts) (g : Hash) :
    sc.lookup g = if (sc.lookup g).isSome then some (count sc g) else none := by
  unfold count
  cases sc.lookup g <;> rfl

/-- `activatedGroupInfoReader`: the groups activated at a height, and the skip counts stored at a
height. -/
structure activatedGroupInfoReader where
  GetActivatedGroupsAt : UInt64 → List GroupHeader
  GetGroupSkipCountsAt : UInt64 → List GroupHeader → Except String skipCounts

section Select

variable (gr : activatedGroupInfoReader)

/-- `getWorkGroupSeedsAt`: the activated groups not skipped too often by the counts stored before
the previous epoch; none when those cannot be read. -/
def getWorkGroupSeedsAt (height : UInt64) : Outcome (List Hash) :=
  let groupIS := gr.GetActivatedGroupsAt height
  if groupIS.length = 0 then .panic "no available groupIS"
  else
    let skipCountBeginHeight := ((EpochAt height).Add (-GroupActivateEpochGap)).Start
    let sc : Except String skipCounts :=
      if skipCountBeginHeight > 0 then gr.GetGroupSkipCountsAt (skipCountBeginHeight - 1) groupIS
      else .ok ∅
    match sc with
    | .error _ => .ok []
    | .ok sc => .ok ((groupIS.filter fun g =>
        g.workHeight == 0 || count sc g.seed < maxActivatedGroupSkipCounts).map (·.seed))

def doSelectWithRandom (rand : Hash) (height : UInt64) : Outcome Hash := do
  let groupSeeds ← getWorkGroupSeedsAt gr height
  if groupSeeds.length = 0 then .panic "no available groups"
  else Outcome.index groupSeeds (rand.Big % groupSeeds.length)

-- `Data2CommonHash`: the hash of bytes
variable (Data2CommonHash : List UInt8 → Hash)

/-- The loop of `calcRandomHash`: `n` more hashes of `data`. -/
def calcRandomLoop : ℕ → List UInt8 → Hash → Hash
  | 0, _, hash => hash
  | n + 1, data, _ => calcRandomLoop n (Data2CommonHash data).bytes (Data2CommonHash data)

-- the header's `Random`
variable (Random : BlockHeader → List UInt8)

/-- `calcRandomHash`: the parent's `Random` hashed once per height up to `height`. -/
def calcRandomHash (preBH : BlockHeader) (height : UInt64) : Hash :=
  calcRandomLoop Data2CommonHash (height - preBH.height).toNat (Random preBH) (BytesToHash [])

def doSelect (preBH : BlockHeader) (height : UInt64) : Outcome Hash :=
  doSelectWithRandom gr (calcRandomHash Data2CommonHash Random preBH height) height

/-- The loop of `groupSkipCountsBetween`, with `n` heights to go from `h`. -/
def skipLoop : ℕ → UInt64 → Hash → skipCounts → Outcome skipCounts
  | 0, _, _, sc => .ok sc
  | n + 1, h, rand, sc => do
    let expectedSeed ← doSelectWithRandom gr rand h
    skipLoop n (h + 1) (Data2CommonHash rand.bytes) (addCount sc expectedSeed 1)

def groupSkipCountsBetween (preBH : BlockHeader) (height : UInt64) : Outcome skipCounts :=
  let h := preBH.height + 1
  skipLoop gr Data2CommonHash (height.toNat - h.toNat) h
    (calcRandomHash Data2CommonHash Random preBH h) ∅

end Select

/-! ## The stored skip counts -/

/-- `pool.updateSkipCount` on the skip counters of the account state (absent is zero): a zero
count clears the counter, another is added to it. -/
def updateSkipCount (db : Hash → UInt16) (seed : Hash) (cnt : UInt16) : Hash → UInt16 :=
  let skip := db seed
  if cnt = 0 then (if skip > 0 then Function.update db seed 0 else db)
  else Function.update db seed (cnt + skip)

section Update

variable (gr : activatedGroupInfoReader) (Data2CommonHash : List UInt8 → Hash)
  (Random : BlockHeader → List UInt8) (ord : GoMap.IterOrder (Σ _ : Hash, UInt16))

/-- `Manager.UpdateGroupSkipCounts`, with the block's parent when the chain has it; the counts are
visited in the order `ord`. -/
def UpdateGroupSkipCounts (db : Hash → UInt16) (bh : BlockHeader) (pre : Option BlockHeader) :
    Outcome (Hash → UInt16) :=
  let db := updateSkipCount db bh.group 0
  match pre with
  | none => .ok db
  | some pre => do
    let counts ← groupSkipCountsBetween gr Data2CommonHash Random pre bh.height
    pure ((ord.order counts.entries).foldl (fun db e => updateSkipCount db e.1 e.2) db)

/-- `UpdateGroupSkipCounts` on each block of a chain after `pre`, with its parent. -/
def applyChain : BlockHeader → List BlockHeader → (Hash → UInt16) → Outcome (Hash → UInt16)
  | _, [], db => .ok db
  | pre, bh :: rest, db => do
    let db ← UpdateGroupSkipCounts gr Data2CommonHash Random ord db bh (some pre)
    applyChain bh rest db

end Update

/-! ## What the counts count -/

/-- The heights strictly between two heights, as `groupSkipCountsBetween` walks them. -/
def heightsBetween (lo hi : UInt64) : List UInt64 :=
  (List.range (hi.toNat - (lo + 1).toNat)).map fun k => lo + 1 + UInt64.ofNat k

section Spec

variable (gr : activatedGroupInfoReader) (Data2CommonHash : List UInt8 → Hash)
  (Random : BlockHeader → List UInt8)

/-- The groups drawn for the heights of the gap between a block and its parent. -/
def gapSelections (pre bh : BlockHeader) : Outcome (List Hash) :=
  (heightsBetween pre.height bh.height).mapM (doSelect gr Data2CommonHash Random pre)

/-- The group of each block of a chain after `pre`, with the groups drawn in the gap before it. -/
def chainGaps : BlockHeader → List BlockHeader → Outcome (List (Hash × List Hash))
  | _, [] => .ok []
  | pre, bh :: rest => do
    let seeds ← gapSelections gr Data2CommonHash Random pre bh
    let gaps ← chainGaps bh rest
    pure ((bh.group, seeds) :: gaps)

end Spec

/-- The gaps from the one before the last block of the group `g` on, or all of them when `g`
produced none. -/
def sinceLast (g : Hash) (gaps : List (Hash × List Hash)) : List (Hash × List Hash) :=
  let after := (gaps.reverse.takeWhile fun e => e.1 ≠ g).reverse
  match gaps.reverse.find? (fun e => e.1 = g) with
  | some e => e :: after
  | none => after

/-- The skipped heights `g` was drawn for since the gap before its last block. -/
def skippedSince (g : Hash) (gaps : List (Hash × List Hash)) : ℕ :=
  ((sinceLast g gaps).map fun e => e.2.count g).sum

/-! ## The running hash is the recomputed one -/

section Random

variable {Data2CommonHash : List UInt8 → Hash}

/-- One more round of `calcRandomHash` hashes the hash of the round before. -/
theorem calcRandomLoop_succ_succ (n : ℕ) (data : List UInt8) (hash : Hash) :
    calcRandomLoop Data2CommonHash (n + 2) data hash =
      Data2CommonHash (calcRandomLoop Data2CommonHash (n + 1) data hash).bytes := by
  -- on the rounds, from the data of the first
  induction n generalizing data hash with
  | zero => rfl
  | succ n ih => exact ih (Data2CommonHash data).bytes (Data2CommonHash data)

/-- The distance from a parent to the `k`-th height after it, while it does not wrap. -/
theorem delta_toNat (a : UInt64) {k : ℕ} (hk : k + 1 < 2 ^ 64) :
    (a + 1 + UInt64.ofNat k - a).toNat = k + 1 := by
  have h : a + 1 + UInt64.ofNat k - a = UInt64.ofNat (k + 1) := by
    rw [UInt64.ofNat_add]
    grind
  rw [h]
  exact UInt64.toNat_ofNat_of_lt' (by unfold UInt64.size; omega)

variable (Random : BlockHeader → List UInt8)

/-- The random hash of the next height hashes that of the height before. -/
theorem calcRandomHash_succ (pre : BlockHeader) {k : ℕ} (hk : k + 2 < 2 ^ 64) :
    calcRandomHash Data2CommonHash Random pre (pre.height + 1 + UInt64.ofNat (k + 1)) =
      Data2CommonHash (calcRandomHash Data2CommonHash Random pre
        (pre.height + 1 + UInt64.ofNat k)).bytes := by
  unfold calcRandomHash
  rw [delta_toNat _ hk, delta_toNat _ (by omega)]
  exact calcRandomLoop_succ_succ k _ _

end Random

/-! ## The counts of a gap -/

section Gap

variable (gr : activatedGroupInfoReader) (Data2CommonHash : List UInt8 → Hash)
  (Random : BlockHeader → List UInt8)

/-- The loop of `groupSkipCountsBetween` from the `j`-th height after the parent, with the running
hash of that height, adds one for the group drawn at each height, as `doSelect` draws it. -/
theorem skipLoop_eq (pre : BlockHeader) (n j : ℕ) (hn : j + n < 2 ^ 64) (sc : skipCounts) :
    skipLoop gr Data2CommonHash n (pre.height + 1 + UInt64.ofNat j)
        (calcRandomHash Data2CommonHash Random pre (pre.height + 1 + UInt64.ofNat j)) sc =
      (List.range' j n).mapM (fun k => doSelect gr Data2CommonHash Random pre
          (pre.height + 1 + UInt64.ofNat k)) >>=
        fun seeds => pure (seeds.foldl (fun sc s => addCount sc s 1) sc) := by
  -- on the heights to go, from any height and any counts
  induction n generalizing j sc with
  | zero => rfl
  | succ n ih =>
    have hh : pre.height + 1 + UInt64.ofNat j + 1 = pre.height + 1 + UInt64.ofNat (j + 1) := by
      rw [UInt64.ofNat_add]
      grind
    rw [skipLoop, List.range'_succ, List.mapM_cons]
    unfold doSelect
    cases hd : doSelectWithRandom gr (calcRandomHash Data2CommonHash Random pre
        (pre.height + 1 + UInt64.ofNat j)) (pre.height + 1 + UInt64.ofNat j) with
    | ok s =>
      simp only [Outcome.ok_bind, hh, bind_assoc, pure_bind, List.foldl_cons]
      rcases n with _ | n
      · -- the last height: the next hash is not used
        rfl
      · have hr := @calcRandomHash_succ Data2CommonHash Random pre j (by omega)
        rw [← hr]
        exact ih (j + 1) (by omega) (addCount sc s 1)
    | error m => rfl
    | panic m => rfl

/-- `groupSkipCountsBetween` adds one for the group `doSelect` draws at each height between the
parent and the block. -/
theorem groupSkipCountsBetween_eq (pre : BlockHeader) (height : UInt64) :
    groupSkipCountsBetween gr Data2CommonHash Random pre height =
      (heightsBetween pre.height height).mapM (doSelect gr Data2CommonHash Random pre) >>=
        fun seeds => pure (seeds.foldl (fun sc s => addCount sc s 1) ∅) := by
  have hlt := height.toNat_lt
  have h := skipLoop_eq gr Data2CommonHash Random pre (height.toNat - (pre.height + 1).toNat) 0
    (by omega) ∅
  have h0 : pre.height + 1 + UInt64.ofNat 0 = pre.height + 1 := by simp
  rw [h0] at h
  unfold groupSkipCountsBetween heightsBetween
  rw [h, List.mapM_map, List.range_eq_range']
  rfl

end Gap

/-! ## Counting the drawn groups -/

theorem isSome_lookup_tally (seeds : List Hash) (sc : skipCounts) (g : Hash) :
    ((seeds.foldl (fun sc s => addCount sc s 1) sc).lookup g).isSome ↔
      (sc.lookup g).isSome ∨ g ∈ seeds := by
  induction seeds generalizing sc with
  | nil => simp
  | cons s seeds ih =>
    rw [List.foldl_cons, ih, lookup_addCount, List.mem_cons]
    by_cases hg : g = s
    · simp [hg]
    · simp [hg]

theorem count_tally (seeds : List Hash) (sc : skipCounts) (g : Hash) :
    count (seeds.foldl (fun sc s => addCount sc s 1) sc) g =
      count sc g + UInt16.ofNat (seeds.count g) := by
  induction seeds generalizing sc with
  | nil => simp
  | cons s seeds ih =>
    rw [List.foldl_cons, ih, count_addCount, List.count_cons]
    by_cases hg : g = s
    · subst hg
      simp only [if_true, beq_self_eq_true, UInt16.ofNat_add]
      grind
    · have hsg : (s == g) = false := by simp [Ne.symm hg]
      simp [hg, hsg]

/-- Counting one for each drawn group: each group maps to the times it was drawn, and a group never
drawn is absent. -/
theorem lookup_tally (seeds : List Hash) (g : Hash) :
    (seeds.foldl (fun sc s => addCount sc s 1) ∅).lookup g =
      if seeds.count g = 0 then none else some (UInt16.ofNat (seeds.count g)) := by
  rw [lookup_eq_count, count_tally]
  have hsome := isSome_lookup_tally seeds ∅ g
  by_cases hc : seeds.count g = 0
  · have hg : g ∉ seeds := List.count_eq_zero.mp hc
    simp [hc, hg] at hsome ⊢
    exact hsome
  · have hg : g ∈ seeds := List.count_pos_iff.mp (Nat.pos_of_ne_zero hc)
    simp [hc, hg] at hsome ⊢
    simp [hsome, count]

/-! ## One block's update -/

theorem updateSkipCount_apply (db : Hash → UInt16) (seed : Hash) (cnt : UInt16) (g : Hash) :
    updateSkipCount db seed cnt g = if g = seed then (if cnt = 0 then 0 else cnt + db seed) else db g := by
  unfold updateSkipCount
  by_cases hg : g = seed
  · subst hg
    by_cases hc : cnt = 0
    · by_cases hs : db g > 0
      · simp [hc, hs]
      · -- a counter that is already zero stays as it is
        have h0 : db g = 0 := by
          rw [gt_iff_lt, UInt16.lt_iff_toNat_lt, UInt16.toNat_zero, Nat.not_lt, Nat.le_zero] at hs
          exact UInt16.toNat_inj.mp (by simpa using hs)
        simp [hc, h0]
    · simp [hc]
  · split_ifs <;> simp [hg]

/-- Updating the counters of distinct seeds one after the other: each seed's counter is updated
by its own count. -/
theorem foldl_updateSkipCount (l : List (Σ _ : Hash, UInt16)) (hl : l.NodupKeys)
    (db : Hash → UInt16) (g : Hash) :
    (l.foldl (fun db e => updateSkipCount db e.1 e.2) db) g =
      match l.dlookup g with
      | some c => if c = 0 then 0 else c + db g
      | none => db g := by
  induction l generalizing db with
  | nil => rfl
  | cons e l ih =>
    obtain ⟨hnotin, hl⟩ := List.nodupKeys_cons.mp hl
    rw [List.foldl_cons, ih hl]
    by_cases hg : g = e.1
    · -- the seed of `e` is updated by `e` alone
      subst hg
      rw [List.dlookup_eq_none.mpr hnotin, List.dlookup_cons_eq, updateSkipCount_apply, if_pos rfl]
    · rw [List.dlookup_cons_ne _ _ hg, updateSkipCount_apply, if_neg hg]

section Block

variable (gr : activatedGroupInfoReader) (Data2CommonHash : List UInt8 → Hash)
  (Random : BlockHeader → List UInt8) (ord : GoMap.IterOrder (Σ _ : Hash, UInt16))

/-- A block's update: the counter of its group is cleared, then each group drawn in the gap before
it gets the times it was drawn added, in whatever order the counts are visited. -/
theorem updateGroupSkipCounts_spec {db db' : Hash → UInt16} {bh pre : BlockHeader}
    (h : UpdateGroupSkipCounts gr Data2CommonHash Random ord db bh (some pre) = .ok db') :
    ∃ seeds, gapSelections gr Data2CommonHash Random pre bh = .ok seeds ∧ ∀ g,
      db' g = let cleared := if g = bh.group then 0 else db g
        if seeds.count g = 0 then cleared
        else if UInt16.ofNat (seeds.count g) = 0 then 0
        else UInt16.ofNat (seeds.count g) + cleared := by
  unfold UpdateGroupSkipCounts at h
  obtain ⟨counts, hcounts, hdb'⟩ := Outcome.bind_eq_ok.mp h
  rw [groupSkipCountsBetween_eq] at hcounts
  obtain ⟨seeds, hseeds, hc⟩ := Outcome.bind_eq_ok.mp hcounts
  cases hc
  cases hdb'
  refine ⟨seeds, hseeds, fun g => ?_⟩
  -- the counts are visited in some order, each seed once
  have hnd₀ := (seeds.foldl (fun sc s => addCount sc s 1) ∅).nodupKeys
  have hnd := (List.perm_nodupKeys (ord.perm _)).mpr hnd₀
  dsimp only
  rw [foldl_updateSkipCount _ hnd, List.perm_dlookup g hnd (ord.perm _)]
  have hl := lookup_tally seeds g
  unfold AList.lookup at hl
  rw [hl, updateSkipCount_apply]
  split_ifs <;> simp_all

end Block

/-! ## Over a chain -/

/-- A block's update on the counts of `g` as numbers: cleared when `g` produced the block, then
the times it was drawn in the gap before added. -/
def skipStep (g : Hash) (acc : ℕ) (e : Hash × List Hash) : ℕ :=
  (if e.1 = g then 0 else acc) + e.2.count g

theorem sinceLast_append_singleton (g : Hash) (gaps : List (Hash × List Hash))
    (e : Hash × List Hash) :
    sinceLast g (gaps ++ [e]) = if e.1 = g then [e] else sinceLast g gaps ++ [e] := by
  unfold sinceLast
  rw [List.reverse_append, List.reverse_singleton, List.singleton_append, List.takeWhile_cons,
    List.find?_cons]
  by_cases he : e.1 = g
  · simp [he]
  · simp only [he, ne_eq, not_false_eq_true, decide_true, decide_false, if_true, if_false,
      List.reverse_cons]
    cases (gaps.reverse.find? fun e => decide (e.1 = g)) <;> simp

/-- Clearing then adding, block after block from zero, counts the skipped heights since the gap
before the last block of `g`. -/
theorem foldl_skipStep (g : Hash) (gaps : List (Hash × List Hash)) :
    gaps.foldl (skipStep g) 0 = skippedSince g gaps := by
  -- from the end of the chain: the last block either is `g`'s or adds its gap to the rest
  induction gaps using List.reverseRecOn with
  | nil => rfl
  | append_singleton gaps e ih =>
    rw [List.foldl_append, List.foldl_cons, List.foldl_nil, ih, skippedSince, skippedSince,
      sinceLast_append_singleton]
    unfold skipStep
    by_cases he : e.1 = g
    · simp [he]
    · simp [he]

theorem foldl_skipStep_le (g : Hash) (gaps : List (Hash × List Hash)) (a : ℕ) :
    gaps.foldl (skipStep g) a ≤ a + (gaps.map fun e => e.2.length).sum := by
  induction gaps generalizing a with
  | nil => simp
  | cons e gaps ih =>
    have hstep : skipStep g a e ≤ a + e.2.length := by
      unfold skipStep
      have := List.count_le_length (a := g) (l := e.2)
      split_ifs <;> omega
    rw [List.foldl_cons, List.map_cons, List.sum_cons]
    have := ih (skipStep g a e)
    omega

/-- No group is counted more often than there are skipped heights. -/
theorem skippedSince_le (g : Hash) (gaps : List (Hash × List Hash)) :
    skippedSince g gaps ≤ (gaps.map fun e => e.2.length).sum := by
  rw [← foldl_skipStep]
  simpa using foldl_skipStep_le g gaps 0

section Chain

variable (gr : activatedGroupInfoReader) (Data2CommonHash : List UInt8 → Hash)
  (Random : BlockHeader → List UInt8) (ord : GoMap.IterOrder (Σ _ : Hash, UInt16))

/-- A block's update on counters that hold the numbers `E`, when the new numbers stay below
`2 ^ 16`: the counters hold the numbers of `skipStep`. -/
theorem toNat_update {db db' : Hash → UInt16} {bh : BlockHeader} {seeds : List Hash}
    {E : Hash → ℕ} (hE : ∀ g, (db g).toNat = E g)
    (hdb' : ∀ g, db' g = let cleared := if g = bh.group then 0 else db g
      if seeds.count g = 0 then cleared
      else if UInt16.ofNat (seeds.count g) = 0 then 0
      else UInt16.ofNat (seeds.count g) + cleared)
    (g : Hash) (hbound : skipStep g (E g) (bh.group, seeds) < 2 ^ 16) :
    (db' g).toNat = skipStep g (E g) (bh.group, seeds) := by
  have hcleared : (if g = bh.group then (0 : UInt16) else db g).toNat =
      if bh.group = g then 0 else E g := by
    by_cases hg : g = bh.group
    · simp [hg]
    · simp [hg, Ne.symm hg, hE g]
  unfold skipStep at hbound ⊢
  rw [hdb' g]
  dsimp only at hbound ⊢
  by_cases hc : seeds.count g = 0
  · rw [if_pos hc, hcleared, hc, Nat.add_zero]
  · have hof : (UInt16.ofNat (seeds.count g)).toNat = seeds.count g :=
      UInt16.toNat_ofNat_of_lt' (by unfold UInt16.size; omega)
    have hne : UInt16.ofNat (seeds.count g) ≠ 0 := fun h0 => hc (by
      rw [← hof, h0, UInt16.toNat_zero])
    rw [if_neg hc, if_neg hne, UInt16.toNat_add, hof, hcleared, Nat.mod_eq_of_lt (by omega)]
    omega

/-- A chain whose updates all return has all its gaps drawn. -/
theorem applyChain_gaps (pre : BlockHeader) (blocks : List BlockHeader) {db₀ db : Hash → UInt16}
    (h : applyChain gr Data2CommonHash Random ord pre blocks db₀ = .ok db) :
    ∃ gaps, chainGaps gr Data2CommonHash Random pre blocks = .ok gaps := by
  induction blocks generalizing pre db₀ with
  | nil => exact ⟨[], rfl⟩
  | cons bh rest ih =>
    obtain ⟨db₁, hupd, hrest⟩ := Outcome.bind_eq_ok.mp h
    obtain ⟨seeds, hseeds, -⟩ := updateGroupSkipCounts_spec gr Data2CommonHash Random ord hupd
    obtain ⟨gaps, hgaps⟩ := ih bh hrest
    exact ⟨(bh.group, seeds) :: gaps, by simp [chainGaps, hseeds, hgaps]⟩

/-- The updates of a chain return when all its gaps are drawn. -/
theorem applyChain_ok (pre : BlockHeader) (blocks : List BlockHeader)
    {gaps : List (Hash × List Hash)} (hgaps : chainGaps gr Data2CommonHash Random pre blocks = .ok gaps)
    (db₀ : Hash → UInt16) :
    ∃ db, applyChain gr Data2CommonHash Random ord pre blocks db₀ = .ok db := by
  induction blocks generalizing pre gaps db₀ with
  | nil => exact ⟨db₀, rfl⟩
  | cons bh rest ih =>
    obtain ⟨seeds, hseeds, hgaps'⟩ := Outcome.bind_eq_ok.mp hgaps
    obtain ⟨gaps', hrest, -⟩ := Outcome.bind_eq_ok.mp hgaps'
    -- the block's update returns, on the counts of the drawn groups
    have hcounts : groupSkipCountsBetween gr Data2CommonHash Random pre bh.height =
        .ok (seeds.foldl (fun sc s => addCount sc s 1) ∅) := by
      rw [groupSkipCountsBetween_eq]
      unfold gapSelections at hseeds
      rw [hseeds]
      rfl
    obtain ⟨db, hdb⟩ := ih bh hrest ((ord.order (seeds.foldl (fun sc s => addCount sc s 1)
      ∅).entries).foldl (fun db e => updateSkipCount db e.1 e.2) (updateSkipCount db₀ bh.group 0))
    refine ⟨db, ?_⟩
    simp only [applyChain, UpdateGroupSkipCounts, hcounts]
    exact hdb

/-- Over the blocks of a chain after `pre`, from counters that hold the numbers `E`: while every
count stays below `2 ^ 16`, the counters hold the numbers of `skipStep` block after block. -/
theorem applyChain_spec (pre : BlockHeader) (blocks : List BlockHeader) {db₀ db : Hash → UInt16}
    {gaps : List (Hash × List Hash)} {E : Hash → ℕ} (hE : ∀ g, (db₀ g).toNat = E g)
    (h : applyChain gr Data2CommonHash Random ord pre blocks db₀ = .ok db)
    (hgaps : chainGaps gr Data2CommonHash Random pre blocks = .ok gaps)
    (hbound : ∀ k g, (gaps.take k).foldl (skipStep g) (E g) < 2 ^ 16) (g : Hash) :
    (db g).toNat = gaps.foldl (skipStep g) (E g) := by
  -- on the blocks, with the parent, the counters, their numbers and the gaps generalised
  induction blocks generalizing pre db₀ E gaps with
  | nil =>
    cases h
    cases hgaps
    exact hE g
  | cons bh rest ih =>
    obtain ⟨db₁, hupd, hrest⟩ := Outcome.bind_eq_ok.mp h
    obtain ⟨seeds, hseeds, hdb₁⟩ := updateGroupSkipCounts_spec gr Data2CommonHash Random ord hupd
    obtain ⟨seeds', hseeds', hgaps'⟩ := Outcome.bind_eq_ok.mp hgaps
    rw [hseeds] at hseeds'
    cases hseeds'
    obtain ⟨gaps', hrestGaps, hg⟩ := Outcome.bind_eq_ok.mp hgaps'
    cases hg
    -- the counters after the block hold the numbers of its step
    have hE₁ : ∀ g, (db₁ g).toNat = skipStep g (E g) (bh.group, seeds) := fun g' =>
      toNat_update hE hdb₁ g' (hbound 1 g')
    rw [List.foldl_cons]
    exact ih bh hE₁ hrest hrestGaps (fun k g' => by simpa using hbound (k + 1) g')

/-- Skip counts record exactly the missed selections.  Between a parent and a height, the counts
of `groupSkipCountsBetween` map each group to the number of heights between them that `doSelect`
draws it for, a group never drawn being absent; and on a chain whose blocks are each updated by
`UpdateGroupSkipCounts` from counters at zero, in any order of the counts, while the counts stay
below `2 ^ 16`, the counter of each group holds the number of skipped heights it was drawn for
since the gap before the last block it produced (all of them when it produced none). -/
theorem skipCounts_chain :
    (∀ (pre : BlockHeader) (height : UInt64), pre.height < height →
      ∀ sc, groupSkipCountsBetween gr Data2CommonHash Random pre height = .ok sc → ∀ g,
        sc.lookup g =
          let n := ((heightsBetween pre.height height).filter fun h =>
            doSelect gr Data2CommonHash Random pre h = .ok g).length
          if n = 0 then none else some (UInt16.ofNat n)) ∧
    (∀ (genesis : BlockHeader) (blocks : List BlockHeader) (db : Hash → UInt16),
      applyChain gr Data2CommonHash Random ord genesis blocks (fun _ => 0) = .ok db →
      ∃ gaps, chainGaps gr Data2CommonHash Random genesis blocks = .ok gaps ∧
        ((∀ k g, skippedSince g (gaps.take k) < 2 ^ 16) →
          ∀ g, (db g).toNat = skippedSince g gaps)) := by
  refine ⟨fun pre height _ sc hsc g => ?_, fun genesis blocks db h => ?_⟩
  · -- the counts of a gap
    rw [groupSkipCountsBetween_eq] at hsc
    obtain ⟨seeds, hseeds, hc⟩ := Outcome.bind_eq_ok.mp hsc
    cases hc
    rw [lookup_tally, Outcome.count_of_mapM_eq_ok hseeds]
  · -- the counters over a chain
    obtain ⟨gaps, hgaps⟩ := applyChain_gaps gr Data2CommonHash Random ord genesis blocks h
    refine ⟨gaps, hgaps, fun hbound g => ?_⟩
    have hspec := applyChain_spec gr Data2CommonHash Random ord genesis blocks (E := fun _ => 0)
      (fun _ => rfl) h hgaps (fun k g' => by rw [foldl_skipStep]; exact hbound k g') g
    rw [hspec, foldl_skipStep]

end Chain

theorem skipCounts_chain_two_skips :
    let G : GroupHeader := ⟨BytesToHash [1], 0, 0, BytesToHash [], 0⟩
    let gr : activatedGroupInfoReader := ⟨fun _ => [G], fun _ _ => .ok ∅⟩
    let genesis : BlockHeader := ⟨BytesToHash [0], 0, BytesToHash [], [], 0, [], BytesToHash [2]⟩
    let b₁ : BlockHeader := ⟨BytesToHash [3], 3, BytesToHash [0], [], 0, [], BytesToHash [2]⟩
    (∃ sc, groupSkipCountsBetween gr BytesToHash (fun _ => []) genesis 3 = .ok sc ∧
      sc.lookup G.seed = some 2) ∧
    ∃ db, applyChain gr BytesToHash (fun _ => []) GoMap.IterOrder.stored genesis [b₁]
      (fun _ => 0) = .ok db ∧ (db G.seed).toNat = 2 := by
  intro G gr genesis b₁
  have hthm := skipCounts_chain gr BytesToHash (fun _ => []) GoMap.IterOrder.stored
  have hmap : (heightsBetween genesis.height 3).mapM
      (doSelect gr BytesToHash (fun _ => []) genesis) = .ok [G.seed, G.seed] := by decide
  have hsc : groupSkipCountsBetween gr BytesToHash (fun _ => []) genesis 3 =
      .ok ([G.seed, G.seed].foldl (fun sc s => addCount sc s 1) ∅) := by
    rw [groupSkipCountsBetween_eq, hmap]
    rfl
  have hgaps : chainGaps gr BytesToHash (fun _ => []) genesis [b₁] =
      .ok [(b₁.group, [G.seed, G.seed])] := by decide
  obtain ⟨db, hdb⟩ := applyChain_ok gr BytesToHash (fun _ => []) GoMap.IterOrder.stored genesis
    [b₁] hgaps (fun _ => 0)
  obtain ⟨gaps, hg, hcount⟩ := hthm.2 genesis [b₁] db hdb
  rw [hgaps] at hg
  cases hg
  -- two heights are skipped in all, so no count reaches `2 ^ 16`
  have hbound : ∀ k g, skippedSince g ([(b₁.group, [G.seed, G.seed])].take k) < 2 ^ 16 := by
    intro k g
    have hle := skippedSince_le g ([(b₁.group, [G.seed, G.seed])].take k)
    rcases k with _ | k <;> simp at hle ⊢ <;> omega
  refine ⟨⟨_, hsc, ?_⟩, db, hdb, ?_⟩
  · rw [hthm.1 genesis 3 (by decide) _ hsc G.seed]
    decide
  · rw [hcount hbound G.seed]
    decide

end GroupSelector

end Zvchain
