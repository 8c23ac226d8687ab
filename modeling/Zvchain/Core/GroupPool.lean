import Zvchain.Types.Epoch
import Zvchain.Types.Transaction
import Zvchain.Lib.ListLoop

/-!
# The group pool (`core/group/pool.go`, `core/group/manager.go`)

The pool stores each group under its seed and the seed of the top group; a new group is linked to
the top by its `PreSeed` (`newGroup`).  `GetActivatedGroupsAt` and `GetLivedGroupsAt` walk the
links from the top (`iterateGroups`), up to the genesis group, whose work height is 0, and stop at
the first group that is not lived.

The early exit misses nothing when later groups are dismissed no earlier: then the walk collects
exactly the groups saved, in the order of their creation, that are activated (or lived) at the
height (`groupsAt_build`).  That holds for groups created at non-decreasing seed heights below the
top `27` epochs of the `uint64` range, each with a seed of its own.  At the top of the range the
dismiss height of a group wraps around below that of the groups before it, and the walk stops
before reaching them (`groupsAt_after_wrap`).
-/

namespace Zvchain

/-- `common.EmptyHash`. -/
def EmptyHash : Hash := ⟨List.replicate HashLength 0, length_replicate_hashLength⟩

/-- The header of a `types.GroupI` that the pool copies: `Seed`, `WorkHeight`, `DismissHeight`. -/
structure GroupInfo where
  seed : Hash
  workHeight : UInt64
  dismissHeight : UInt64
  deriving DecidableEq, Repr

/-- `groupHeader`, without the public key and the threshold, which the pool only stores. -/
structure GroupHeader where
  seed : Hash
  workHeight : UInt64
  dismissHeight : UInt64
  preSeed : Hash
  groupHeight : UInt64
  deriving DecidableEq, Repr

namespace GroupHeader

def livedAt (g : GroupHeader) (height : UInt64) : Bool := g.dismissHeight > height

def activatedAt (g : GroupHeader) (height : UInt64) : Bool :=
  g.workHeight ≤ height && g.livedAt height

/-- The header as the group's information. -/
def info (g : GroupHeader) : GroupInfo := ⟨g.seed, g.workHeight, g.dismissHeight⟩

end GroupHeader

/-- `newGroup`: the header of a group saved on the top group `top`, or of the first group. -/
def newGroup (i : GroupInfo) (top : Option GroupHeader) : GroupHeader :=
  match top with
  | some top => ⟨i.seed, i.workHeight, i.dismissHeight, top.seed, top.groupHeight + 1⟩
  | none => ⟨i.seed, i.workHeight, i.dismissHeight, EmptyHash, 0⟩

/-- The genesis group of `GenerateGenesis`: work height 0, dismiss height `MaxUint64`. -/
def genesisInfo (seed : Hash) : GroupInfo := ⟨seed, 0, 18446744073709551615⟩

/-- A group created at `seedHeight` (`consensus/group/packet.go`). -/
def createdInfo (seed : Hash) (seedHeight : UInt64) : GroupInfo :=
  ⟨seed, (ActivateEpochOfGroupsCreatedAt seedHeight).Start,
    (DismissEpochOfGroupsCreatedAt seedHeight).Start⟩

/-- The pool over the latest account database: the groups under their seeds (`groupDataKey`),
the seed of the top group (`topGroupKey`), and the genesis group the pool keeps. -/
structure Pool where
  genesis : GroupHeader
  groups : AList fun _ : Hash => GroupHeader
  topSeed : Hash

namespace Pool

variable {σ : Type}

def get (p : Pool) (seed : Hash) : Option GroupHeader := p.groups.lookup seed

def getTopGroup (p : Pool) : Option GroupHeader := p.get p.topSeed

/-- `add`, which `saveGroup` calls: the group under its seed, and its seed as the top. -/
def add (p : Pool) (g : GroupHeader) : Pool :=
  { p with groups := p.groups.insert g.seed g, topSeed := g.seed }

/-- `initGenesis` on a database without groups. -/
def initGenesis (gen : GroupInfo) : Pool :=
  let g := newGroup gen none
  ⟨g, (∅ : AList fun _ : Hash => GroupHeader).insert g.seed g, g.seed⟩

/-- The success branch of `tryCreateGroup`: `saveGroup` of the new group on the top group. -/
def createGroup (p : Pool) (i : GroupInfo) : Pool := p.add (newGroup i p.getTopGroup)

/-- The loop of `iterateGroups` from `current`: while there is a group and its work height is
above 0, run `iterFunc` on it and go on to the group under its `PreSeed` if `iterFunc` says so.
Each test of the loop condition takes one unit of `fuel`; `none` when it runs out. -/
def iterateFrom (p : Pool) (iterFunc : GroupHeader → σ → σ × Bool) :
    ℕ → Option GroupHeader → σ → Option σ
  | 0, _, _ => none
  | fuel + 1, current, s =>
    match current with
    | some g =>
      if g.workHeight > 0 then
        if (iterFunc g s).2 then iterateFrom p iterFunc fuel (p.get g.preSeed) (iterFunc g s).1
        else some (iterFunc g s).1
      else some s
    | none => some s

/-- `iterateGroups`: the loop from the top group. -/
def iterateGroups (p : Pool) (iterFunc : GroupHeader → σ → σ × Bool) (fuel : ℕ) (s : σ) :
    Option σ :=
  p.iterateFrom iterFunc fuel p.getTopGroup s

end Pool

/-- The body of the loop of `GetActivatedGroupsAt`. -/
def activatedBody (height : UInt64) (g : GroupHeader) (gis : List GroupHeader) :
    List GroupHeader × Bool :=
  (if g.activatedAt height then gis ++ [g] else gis, g.livedAt height)

/-- The body of the loop of `GetLivedGroupsAt`. -/
def livedBody (height : UInt64) (g : GroupHeader) (gis : List GroupHeader) :
    List GroupHeader × Bool :=
  let lived := g.livedAt height
  (if lived then gis ++ [g] else gis, lived)

/-- `Manager.GetActivatedGroupsAt`: the groups collected, reverted, then the genesis group. -/
def GetActivatedGroupsAt (p : Pool) (height : UInt64) (fuel : ℕ) : Option (List GroupHeader) :=
  (p.iterateGroups (activatedBody height) fuel []).map fun gis => gis.reverse ++ [p.genesis]

/-- `Manager.GetLivedGroupsAt`. -/
def GetLivedGroupsAt (p : Pool) (height : UInt64) (fuel : ℕ) : Option (List GroupHeader) :=
  (p.iterateGroups (livedBody height) fuel []).map fun gis => gis.reverse ++ [p.genesis]

/-- The pool after the genesis group and groups created at the given seeds and seed heights, one
after the other, with the groups saved, oldest first. -/
def build (gen : Hash) (creations : List (Hash × UInt64)) : Pool × List GroupHeader :=
  creations.foldl (fun ps c => (ps.1.createGroup (createdInfo c.1 c.2),
      ps.2 ++ [newGroup (createdInfo c.1 c.2) ps.1.getTopGroup]))
    (Pool.initGenesis (genesisInfo gen), [])

/-! ## The loop over the links -/

namespace Pool

variable {σ : Type}

/-- The groups the loop of `iterateFrom` visits from `current`, in order: each stored under the
`PreSeed` of the one before and with a work height above 0, up to a missing group or one of work
height 0. -/
inductive Walk (p : Pool) : Option GroupHeader → List GroupHeader → Prop
  | missing : Walk p none []
  | genesis {g : GroupHeader} (hg : g.workHeight = 0) : Walk p (some g) []
  | link {g : GroupHeader} {rest : List GroupHeader} (hg : 0 < g.workHeight)
      (hrest : Walk p (p.get g.preSeed) rest) : Walk p (some g) (g :: rest)

/-- With a unit of fuel for each group of a walk and one for the last test, the loop from the walk's
start is the loop over the walk. -/
theorem iterateFrom_of_walk {p : Pool} {iterFunc : GroupHeader → σ → σ × Bool}
    {current : Option GroupHeader} {c : List GroupHeader} (hw : Walk p current c) {fuel : ℕ}
    (hfuel : c.length < fuel) (s : σ) :
    p.iterateFrom iterFunc fuel current s = some (ListLoop.loopWhile iterFunc c s) := by
  obtain ⟨fuel, rfl⟩ : ∃ f, fuel = f + 1 := ⟨fuel - 1, by omega⟩
  induction hw generalizing fuel s with
  | missing => rfl
  | genesis hg =>
    rw [iterateFrom, if_neg (by simp [hg])]
    rfl
  | @link g rest hg hrest ih =>
    have hfuel' : rest.length < fuel := by simpa using hfuel
    obtain ⟨fuel, rfl⟩ : ∃ f, fuel = f + 1 := ⟨fuel - 1, by omega⟩
    rw [iterateFrom, if_pos hg, ListLoop.loopWhile_cons]
    split_ifs
    · exact ih _ fuel (by omega)
    · rfl

/-- Storing a group under a seed that no step of a walk looks up keeps the walk. -/
theorem Walk.add {p : Pool} {current : Option GroupHeader} {c : List GroupHeader}
    (hw : Walk p current c) {g : GroupHeader} (hg : ∀ x ∈ c, x.preSeed ≠ g.seed) :
    Walk (p.add g) current c := by
  induction hw with
  | missing => exact .missing
  | genesis h => exact .genesis h
  | @link x rest hx _ ih =>
    have hget : (p.add g).get x.preSeed = p.get x.preSeed :=
      AList.lookup_insert_ne (hg x List.mem_cons_self)
    exact .link hx (hget ▸ ih fun y hy => hg y (List.mem_cons_of_mem x hy))

end Pool

theorem activatedBody_eq (height : UInt64) :
    activatedBody height = ListLoop.collect (·.activatedAt height) (·.livedAt height) := rfl

theorem livedBody_eq (height : UInt64) :
    livedBody height = ListLoop.collect (·.livedAt height) (·.livedAt height) := rfl

theorem GroupHeader.livedAt_of_activatedAt {g : GroupHeader} {height : UInt64}
    (h : g.activatedAt height = true) : g.livedAt height = true := by
  simp only [GroupHeader.activatedAt, Bool.and_eq_true] at h
  exact h.2

/-- Over a walk along which a group that is not lived is followed only by groups that are not
lived, the loop of `GetActivatedGroupsAt` collects every activated group of the walk. -/
theorem iterateFrom_activated {p : Pool} {current : Option GroupHeader} {c : List GroupHeader}
    (hw : Pool.Walk p current c) {height : UInt64}
    (hc : c.Pairwise fun a b => b.livedAt height → a.livedAt height) {fuel : ℕ}
    (hfuel : c.length < fuel) :
    p.iterateFrom (activatedBody height) fuel current [] =
      some (c.filter (·.activatedAt height)) := by
  rw [Pool.iterateFrom_of_walk hw hfuel, activatedBody_eq,
    ListLoop.loopWhile_collect_of_pairwise (fun _ => GroupHeader.livedAt_of_activatedAt) hc,
    List.nil_append]

theorem iterateFrom_lived {p : Pool} {current : Option GroupHeader} {c : List GroupHeader}
    (hw : Pool.Walk p current c) {height : UInt64}
    (hc : c.Pairwise fun a b => b.livedAt height → a.livedAt height) {fuel : ℕ}
    (hfuel : c.length < fuel) :
    p.iterateFrom (livedBody height) fuel current [] = some (c.filter (·.livedAt height)) := by
  rw [Pool.iterateFrom_of_walk hw hfuel, livedBody_eq,
    ListLoop.loopWhile_collect_of_pairwise (fun _ h => h) hc, List.nil_append]

/-! ## Pools built from the genesis group -/

theorem info_newGroup (i : GroupInfo) (top : Option GroupHeader) : (newGroup i top).info = i := by
  cases top <;> rfl

/-- What a pool built from the genesis group of seed `gen` keeps, with the groups `saved` so far,
oldest first: the genesis group and the saved groups are stored under their seeds, the last one
saved is the top, the links from it pass through all of them newest first, and each links to the
genesis group or to a saved one. -/
structure BuildInv (gen : Hash) (p : Pool) (saved : List GroupHeader) : Prop where
  genesis : p.genesis = newGroup (genesisInfo gen) none
  get_iff : ∀ s g, p.get s = some g ↔ (s = gen ∧ g = p.genesis) ∨ (g ∈ saved ∧ g.seed = s)
  top : p.getTopGroup = some (saved.getLast?.getD p.genesis)
  walk : Pool.Walk p p.getTopGroup saved.reverse
  linked : ∀ g ∈ saved, g.preSeed = gen ∨ ∃ g' ∈ saved, g'.seed = g.preSeed

theorem buildInv_initGenesis (gen : Hash) :
    BuildInv gen (Pool.initGenesis (genesisInfo gen)) [] := by
  have hseed : (newGroup (genesisInfo gen) none).seed = gen := rfl
  have hget : ∀ s, (Pool.initGenesis (genesisInfo gen)).get s =
      if s = gen then some (newGroup (genesisInfo gen) none) else none := by
    intro s
    simp only [Pool.get, Pool.initGenesis, hseed]
    split_ifs with hs
    · rw [hs, AList.lookup_insert]
    · rw [AList.lookup_insert_ne hs]
      rfl
  have htop : (Pool.initGenesis (genesisInfo gen)).getTopGroup =
      some (newGroup (genesisInfo gen) none) := by
    rw [Pool.getTopGroup, hget]
    exact if_pos hseed
  refine ⟨rfl, fun s g => ?_, htop, ?_, by simp⟩
  · rw [hget]
    by_cases hs : s = gen
    · simp only [hs, if_true, Option.some.injEq, true_and, List.not_mem_nil, false_and, or_false]
      exact eq_comm
    · simp [hs]
  · rw [htop]
    exact .genesis rfl

/-- Saving a group with a seed of its own and a work height above 0 keeps the invariant, with the
group saved last. -/
theorem BuildInv.createGroup {gen : Hash} {p : Pool} {saved : List GroupHeader}
    (hinv : BuildInv gen p saved) {i : GroupInfo} (hfresh : i.seed ∉ gen :: saved.map (·.seed))
    (hwork : 0 < i.workHeight) :
    BuildInv gen (p.createGroup i) (saved ++ [newGroup i p.getTopGroup]) := by
  set t := saved.getLast?.getD p.genesis with ht_def
  have htop := hinv.top
  have hne : ∀ s ∈ gen :: saved.map (·.seed), s ≠ i.seed := fun s hs h => hfresh (h ▸ hs)
  -- the top group is the genesis group or the last one saved, stored under its seed
  have ht : t = p.genesis ∨ t ∈ saved := by
    cases hl : saved.getLast? with
    | none => exact .inl (by rw [ht_def, hl]; rfl)
    | some x => exact .inr (by rw [ht_def, hl]; exact List.mem_of_getLast? hl)
  have htseed : t.seed ∈ gen :: saved.map (·.seed) := by
    rcases ht with h | h
    · rw [h, hinv.genesis]
      exact List.mem_cons_self
    · exact List.mem_cons_of_mem _ (List.mem_map_of_mem h)
  have hgett : p.get t.seed = some t := (hinv.get_iff _ _).mpr (by
    rcases ht with h | h
    · exact .inl ⟨by rw [h, hinv.genesis]; rfl, h⟩
    · exact .inr ⟨h, rfl⟩)
  have hpre : ∀ x ∈ saved, x.preSeed ∈ gen :: saved.map (·.seed) := fun x hx => by
    rcases hinv.linked x hx with h | ⟨y, hy, h⟩
    · rw [h]
      exact List.mem_cons_self
    · rw [← h]
      exact List.mem_cons_of_mem _ (List.mem_map_of_mem hy)
  unfold Pool.createGroup
  rw [htop]
  set g := newGroup i (some t) with hg
  have hgseed : g.seed = i.seed := rfl
  refine ⟨hinv.genesis, fun s x => ?_, ?_, ?_, fun x hx => ?_⟩
  · by_cases hs : s = i.seed
    · subst hs
      rw [Pool.get, Pool.add, hgseed, AList.lookup_insert, Option.some.injEq]
      constructor
      · rintro rfl
        exact .inr ⟨List.mem_append_right _ List.mem_cons_self, rfl⟩
      · rintro (⟨hgen, -⟩ | ⟨hx, hxs⟩)
        · exact absurd hgen.symm (hne gen List.mem_cons_self)
        · rcases List.mem_append.mp hx with hx | hx
          · exact absurd hxs (hne _ (List.mem_cons_of_mem _ (List.mem_map_of_mem hx)))
          · exact (List.mem_singleton.mp hx).symm
    · rw [Pool.get, Pool.add, AList.lookup_insert_ne (hgseed ▸ Ne.symm (Ne.symm hs))]
      refine (hinv.get_iff s x).trans ?_
      simp only [List.mem_append, List.mem_singleton]
      constructor
      · rintro (h | ⟨hx, hxs⟩)
        · exact .inl h
        · exact .inr ⟨.inl hx, hxs⟩
      · rintro (h | ⟨hx | rfl, hxs⟩)
        · exact .inl h
        · exact .inr ⟨hx, hxs⟩
        · exact absurd hxs.symm hs
  · rw [Pool.getTopGroup, Pool.get, Pool.add, hgseed, AList.lookup_insert, List.getLast?_concat]
    rfl
  · have htop' : (p.add g).getTopGroup = some g := by
      rw [Pool.getTopGroup, Pool.get, Pool.add, AList.lookup_insert]
    rw [htop', List.reverse_append, List.reverse_singleton, List.singleton_append]
    -- the new top links to the old one, from which the old walk goes on unchanged
    have hget : (p.add g).get g.preSeed = p.getTopGroup := by
      rw [htop, ← hgett]
      exact AList.lookup_insert_ne (hne _ htseed)
    refine .link hwork (hget ▸ hinv.walk.add fun x hx => ?_)
    exact hne _ (hpre x (List.mem_reverse.mp hx))
  · rcases List.mem_append.mp hx with hx | hx
    · rcases hinv.linked x hx with h | ⟨y, hy, h⟩
      · exact .inl h
      · exact .inr ⟨y, List.mem_append_left _ hy, h⟩
    · rw [List.mem_singleton.mp hx]
      rcases ht with h | h
      · exact .inl (by rw [hg, h, hinv.genesis]; rfl)
      · exact .inr ⟨t, List.mem_append_left _ h, rfl⟩

theorem build_append (gen : Hash) (creations : List (Hash × UInt64)) (c : Hash × UInt64) :
    build gen (creations ++ [c]) =
      ((build gen creations).1.createGroup (createdInfo c.1 c.2),
        (build gen creations).2 ++
          [newGroup (createdInfo c.1 c.2) (build gen creations).1.getTopGroup]) := by
  rw [build, List.foldl_append, List.foldl_cons, List.foldl_nil]
  rfl

section Run

variable {gen : Hash} {creations : List (Hash × UInt64)}

/-- Over a run of creations with seeds of their own, below the top `27` epochs of the range, the
pool keeps `BuildInv`, and the groups saved are those created, in order. -/
theorem buildInv_build (hseeds : (gen :: creations.map Prod.fst).Nodup)
    (hwrap : ∀ c ∈ creations, c.2.toNat + 27 * 240 < 2 ^ 64) :
    BuildInv gen (build gen creations).1 (build gen creations).2 ∧
      (build gen creations).2.map GroupHeader.info = creations.map fun c => createdInfo c.1 c.2 := by
  induction creations using List.reverseRecOn with
  | nil => exact ⟨buildInv_initGenesis gen, rfl⟩
  | append_singleton cs c ih =>
    have hseeds' : (gen :: (cs.map Prod.fst ++ [c.1])).Nodup := by simpa using hseeds
    obtain ⟨hinv, hmap⟩ := ih (List.Nodup.sublist (by simp) hseeds')
      fun x hx => hwrap x (List.mem_append_left _ hx)
    have hseedsOf : (build gen cs).2.map (·.seed) = cs.map Prod.fst := by
      have := congrArg (List.map GroupInfo.seed) hmap
      simpa [List.map_map, Function.comp_def, GroupHeader.info, createdInfo] using this
    have hfresh : (createdInfo c.1 c.2).seed ∉ gen :: (build gen cs).2.map (·.seed) := by
      rw [hseedsOf]
      intro hmem
      rcases List.mem_cons.mp hmem with h | h
      · exact (List.nodup_cons.mp hseeds').1 (by rw [← h]; simp [createdInfo])
      · exact (List.nodup_append.mp (List.nodup_cons.mp hseeds').2).2.2 _ h _
          List.mem_cons_self rfl
    have hwork : 0 < (createdInfo c.1 c.2).workHeight :=
      activateStart_pos (by have := hwrap c (by simp); omega)
    rw [build_append]
    refine ⟨hinv.createGroup hfresh hwork, ?_⟩
    rw [List.map_append, hmap, List.map_append, List.map_singleton, List.map_singleton,
      info_newGroup]

/-- Groups created at non-decreasing seed heights below the top `27` epochs of the range are
dismissed no earlier than the groups before them. -/
theorem pairwise_dismissHeight_build (hseeds : (gen :: creations.map Prod.fst).Nodup)
    (hsorted : (creations.map Prod.snd).Pairwise (· ≤ ·))
    (hwrap : ∀ c ∈ creations, c.2.toNat + 27 * 240 < 2 ^ 64) :
    (build gen creations).2.Pairwise fun a b => a.dismissHeight ≤ b.dismissHeight := by
  have hmap := (buildInv_build hseeds hwrap).2
  have hinfo : ((build gen creations).2.map GroupHeader.info).Pairwise
      fun a b => a.dismissHeight ≤ b.dismissHeight := by
    rw [hmap, List.pairwise_map]
    exact (List.pairwise_map.mp hsorted).imp_of_mem fun _ hb hle => dismissStart_le hle (hwrap _ hb)
  have hsaved := List.pairwise_map.mp hinfo
  exact hsaved

end Run

/-- For groups created one after the other at non-decreasing seed heights below the top `27`
epochs of the range, each with a seed of its own: the pool stores the genesis group under its seed
and each saved group under its own, and nothing else; and with fuel for the walk,
`GetActivatedGroupsAt` returns the saved groups activated at the height, oldest first, then the
genesis group, and `GetLivedGroupsAt` those lived at the height. -/
theorem groupsAt_build {gen : Hash} {creations : List (Hash × UInt64)}
    (hseeds : (gen :: creations.map Prod.fst).Nodup)
    (hsorted : (creations.map Prod.snd).Pairwise (· ≤ ·))
    (hwrap : ∀ c ∈ creations, c.2.toNat + 27 * 240 < 2 ^ 64) (height : UInt64) {fuel : ℕ}
    (hfuel : creations.length < fuel) :
    (∀ s g, (build gen creations).1.get s = some g ↔
      (s = gen ∧ g = (build gen creations).1.genesis) ∨ (g ∈ (build gen creations).2 ∧ g.seed = s)) ∧
    GetActivatedGroupsAt (build gen creations).1 height fuel =
      some ((build gen creations).2.filter (·.activatedAt height) ++
        [(build gen creations).1.genesis]) ∧
    GetLivedGroupsAt (build gen creations).1 height fuel =
      some ((build gen creations).2.filter (·.livedAt height) ++
        [(build gen creations).1.genesis]) := by
  obtain ⟨hinv, hmap⟩ := buildInv_build hseeds hwrap
  have hlen : (build gen creations).2.reverse.length < fuel := by
    rw [List.length_reverse, ← List.length_map GroupHeader.info, hmap, List.length_map]
    exact hfuel
  -- newest first, a group that is not lived is followed only by groups that are not lived
  have hlived : (build gen creations).2.reverse.Pairwise
      fun a b => b.livedAt height → a.livedAt height :=
    List.pairwise_reverse.mpr ((pairwise_dismissHeight_build hseeds hsorted hwrap).imp
      fun hab ha => by
        simp only [GroupHeader.livedAt, decide_eq_true_eq] at ha ⊢
        exact UInt64.lt_of_lt_of_le ha hab)
  refine ⟨hinv.get_iff, ?_, ?_⟩
  · rw [GetActivatedGroupsAt, Pool.iterateGroups, iterateFrom_activated hinv.walk hlived hlen,
      Option.map_some, List.filter_reverse, List.reverse_reverse]
  · rw [GetLivedGroupsAt, Pool.iterateGroups, iterateFrom_lived hinv.walk hlived hlen,
      Option.map_some, List.filter_reverse, List.reverse_reverse]

/-- Two groups created at seed heights 0 and 240, and the groups at height 500. -/
theorem groupsAt_build_two_groups :
    let creations := [(BytesToHash [1], (0 : UInt64)), (BytesToHash [2], 240)]
    (BytesToHash [0] :: creations.map Prod.fst).Nodup ∧
      (creations.map Prod.snd).Pairwise (· ≤ ·) ∧
      (∀ c ∈ creations, c.2.toNat + 27 * 240 < 2 ^ 64) ∧ creations.length < 3 ∧
      GetActivatedGroupsAt (build (BytesToHash [0]) creations).1 500 3 =
        some ((build (BytesToHash [0]) creations).2.filter (·.activatedAt 500) ++
          [(build (BytesToHash [0]) creations).1.genesis]) := by
  intro creations
  have hseeds : (BytesToHash [0] :: creations.map Prod.fst).Nodup := by decide
  have hsorted : (creations.map Prod.snd).Pairwise (· ≤ ·) := by decide
  have hwrap : ∀ c ∈ creations, c.2.toNat + 27 * 240 < 2 ^ 64 := by decide
  exact ⟨hseeds, hsorted, hwrap, by decide,
    (groupsAt_build hseeds hsorted hwrap 500 (by decide)).2.1⟩

/-- At the top of the range the dismiss height wraps around: after a group created at seed height
0, dismissed at 6480, a group created at seed height `2^64 - 1` is dismissed at 6240.  At height
6300 the walk stops at the second and misses the first, which is activated there. -/
theorem groupsAt_after_wrap :
    let creations := [(BytesToHash [1], (0 : UInt64)), (BytesToHash [2], 18446744073709551615)]
    let r := build (BytesToHash [0]) creations
    (BytesToHash [0] :: creations.map Prod.fst).Nodup ∧
      (creations.map Prod.snd).Pairwise (· ≤ ·) ∧
      r.2.filter (·.activatedAt 6300) ≠ [] ∧ r.2.filter (·.livedAt 6300) ≠ [] ∧
      ∀ fuel, GetActivatedGroupsAt r.1 6300 (fuel + 1) = some [r.1.genesis] ∧
        GetLivedGroupsAt r.1 6300 (fuel + 1) = some [r.1.genesis] := by
  intro creations r
  refine ⟨by decide, by decide, by decide, by decide, fun fuel => ⟨rfl, rfl⟩⟩

end Zvchain
