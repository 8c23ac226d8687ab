import Zvchain.Storage.Trie
import Zvchain.Storage.AccountDB
import Zvchain.Core.PruneHeights

/-!
# Offline pruning of the state (`OfflineTailor`, `AccountDB.Traverse`)

`Pruning` collects the hashes that the states it keeps use (`collectUsedNodes`), then erases
every other entry of the state database (`eraseNodes`).  The heights kept are listed from the top
down until `TriesInMemory` of them lie at or below the checkpoint (`collectBlockHeights`); from
the lowest up, the state of each is walked by `AccountDB.Traverse`: the whole account trie and,
at each account, its storage trie and its code.  The storage trie of a group-seed account
(`loadAllGroupSeeds`) is walked along the `group` key only.  Every storage root walked goes into
`VisitedRoots`, one set for the whole collection, and a root met again is not walked again,
whatever walk put it there.

Each walk only adds to what is used (`Grows`), so every account of every height collected reads
the same after the erasure (`Pruning_keeps_accounts`).  A storage trie is kept whole only when
its first walk was a full one: an account that shares its storage root with a group-seed account
walked before it loses every node off the path of `group` (`Pruning_loses_shared_storage`).

An address is its thirty-two bytes, as a hash is: `BytesToAddress` is `BytesToHash`, and a seed
is the address of its group's account (`HashToAddress`).  RLP decoding of an account is a
parameter (`decodeAccount`).
-/

namespace Zvchain

namespace StatePrune

open Trie

/-- `account.Account` as the account trie stores it. -/
structure Account where
  nonce : UInt64
  balance : ℤ
  root : Hash
  codeHash : List UInt8

/-- `chain.stateDb`: the trie nodes and the contract codes, each stored under its hash. -/
structure StateDb where
  node : Hash → Option (Node (List UInt8))
  code : Hash → Option (List UInt8)

/-- `emptyData`, `sha3.Sum256(nil)`. -/
def emptyData : Hash := BytesToHash emptyCodeHash

/-- `emptyCode`, `sha3.Sum256(nil)`. -/
def emptyCode : Hash := BytesToHash emptyCodeHash

/-- `groupDataKey`, `[]byte("group")`: the key of a group's data in the account of its seed. -/
def groupDataKey : List UInt8 := [0x67, 0x72, 0x6f, 0x75, 0x70]

/-- The chain as the tailor reads it: `Height()`, `hasHeight`, and the state root of the header
`accountDBAt` takes for a height, if it finds one. -/
structure Chain where
  Height : UInt64
  hasHeight : UInt64 → Bool
  stateTreeAt : UInt64 → Option Hash

/-- What the collection has gathered: the tailor's `usedNodes` and the `VisitedRoots` of its
traverse configuration. -/
structure Collected where
  usedNodes : List Hash
  visitedRoots : List Hash
  deriving DecidableEq

/-- `resolveCallback`, and `OnResolve` with it. -/
def resolveCallback (h : Hash) (t : Collected) : Collected :=
  { t with usedNodes := t.usedNodes.insert h }

/-- `nodeUsed`. -/
def nodeUsed (t : Collected) (h : Hash) : Bool := t.usedNodes.contains h

/-- `needTraverse`. -/
def needTraverse (t : Collected) (root : Hash) : Bool := !t.visitedRoots.contains root

/-- `addVisitedRoot`. -/
def addVisitedRoot (root : Hash) (t : Collected) : Collected :=
  { t with visitedRoots := t.visitedRoots.insert root }

/-- `subTreeConcernedKeys`: the group key for a group-seed account, no key for another. -/
def subTreeConcernedKeys (groupSeeds : List Hash) (address : Hash) : List (List UInt8) :=
  if groupSeeds.contains address then [groupDataKey] else []

/-- `leafCb` of a storage walk, which only counts. -/
def leafCb (_key _value : List UInt8) (t : Collected) : Option (Outcome Collected) :=
  some (.ok t)

section Tailor

variable (db : StateDb) (decodeAccount : List UInt8 → Outcome Account)

/-- The walk of a storage trie in `AccountDB.Traverse`: the whole trie when no key is given, else
the path of each key in turn. -/
def traverseStorage (fuel : ℕ) (root : Hash) (keys : List (List UInt8)) (t : Collected) :
    Option (Outcome Collected) :=
  if keys.length = 0 then Traverse db.node unresolved leafCb resolveCallback fuel root t
  else keys.foldl (fun r key => Outcome.andThen r
    (TraverseKey db.node unresolved leafCb resolveCallback fuel root key)) (some (.ok t))

/-- The storage part of the callback at an account: its storage trie is walked, and its root
visited, unless the root is `emptyData` or already visited. -/
def visitStorage (groupSeeds : List Hash) (fuel : ℕ) (address : Hash) (account : Account)
    (t : Collected) : Option (Outcome Collected) :=
  if account.root ≠ emptyData ∧ needTraverse t account.root = true then
    match NewTrie db.node unresolved account.root with
    | .ok _ =>
      Outcome.andThen
        (traverseStorage db fuel account.root (subTreeConcernedKeys groupSeeds address) t)
        fun t => some (.ok (addVisitedRoot account.root t))
    | .error m => some (.error m)
    | .panic m => some (.panic m)
  else some (.ok t)

/-- The code part of the callback at an account: a code other than `emptyCode` is read, and its
hash used. -/
def visitCode (account : Account) (t : Collected) : Option (Outcome Collected) :=
  if BytesToHash account.codeHash ≠ emptyCode then
    match db.code (BytesToHash account.codeHash) with
    | some _ => some (.ok (resolveCallback (BytesToHash account.codeHash) t))
    | none => some (.error "get code err")
  else some (.ok t)

/-- The callback of `AccountDB.Traverse` at each account of the account trie. -/
def visitAccount (groupSeeds : List Hash) (fuel : ℕ) (key value : List UInt8) (t : Collected) :
    Option (Outcome Collected) :=
  match decodeAccount value with
  | .ok account =>
    Outcome.andThen (visitStorage db groupSeeds fuel (BytesToHash key) account t)
      (visitCode db account)
  | .error m => some (.error m)
  | .panic m => some (.panic m)

/-- `AccountDB.Traverse` of the state whose account trie has the root `root`. -/
def traverseAccounts (groupSeeds : List Hash) (fuel : ℕ) (root : Hash) (t : Collected) :
    Option (Outcome Collected) :=
  Traverse db.node unresolved (visitAccount db decodeAccount groupSeeds fuel) resolveCallback fuel
    root t

/-- `AccountDBAt`: the root node of the account trie of a height; none when no header is found or
its state root is missing. -/
def AccountDBAt (chain : Chain) (h : UInt64) : Option (Node (List UInt8)) :=
  match chain.stateTreeAt h with
  | none => none
  | some root =>
    match NewTrie db.node unresolved root with
    | .ok n => some n
    | _ => none

/-- `FullBlockChain.Traverse` at a height: the walk of its state, or nothing when the state cannot
be opened. -/
def traverseAt (chain : Chain) (groupSeeds : List Hash) (fuel : ℕ) (h : UInt64) (t : Collected) :
    Option (Outcome Collected) :=
  match chain.stateTreeAt h with
  | none => some (.ok t)
  | some root =>
    match NewTrie db.node unresolved root with
    | .ok _ => traverseAccounts db decodeAccount groupSeeds fuel root t
    | _ => some (.ok t)

/-- The loop of `collectUsedNodes` over the heights from `s` down: each height the chain has, until
`cnt` of them at or below the checkpoint reach `TriesInMemory`; it stops after height 0. -/
def collectHeightsFrom (chain : Chain) (checkpoint : UInt64) : ℕ → UInt64 → List UInt64
  | s, cnt =>
    if cnt < TriesInMemory then
      let h := UInt64.ofNat s
      let found := chain.hasHeight h
      let cnt := if found = true ∧ h ≤ checkpoint then cnt + 1 else cnt
      (if found then [h] else []) ++
        match s with
        | 0 => []
        | s + 1 => collectHeightsFrom chain checkpoint s cnt
    else []

/-- `collectBlockHeights`: the heights `collectUsedNodes` collects, from the top down. -/
def collectBlockHeights (chain : Chain) (checkpoint : UInt64) : List UInt64 :=
  collectHeightsFrom chain checkpoint chain.Height.toNat 0

/-- On a chain that has every height up to `s`, all at or below the checkpoint, the loop lists
the `n` heights from `s` down that bring the count to `TriesInMemory`. -/
theorem collectHeightsFrom_of_all {chain : Chain} {checkpoint : UInt64} {s n : ℕ} {cnt : UInt64}
    (hall : ∀ i ≤ s, chain.hasHeight (UInt64.ofNat i) = true ∧ UInt64.ofNat i ≤ checkpoint)
    (hn : n ≤ s + 1) (hcnt : cnt.toNat + n = TriesInMemory.toNat) :
    collectHeightsFrom chain checkpoint s cnt =
      ((List.range n).map fun i => UInt64.ofNat (s + 1 - n + i)).reverse := by
  have htim : TriesInMemory.toNat = 980 := rfl
  induction s generalizing cnt n with
  | zero =>
    rw [collectHeightsFrom]
    rcases n with _ | n
    · rw [if_neg (by rw [UInt64.lt_iff_toNat_lt]; omega)]
      rfl
    · obtain rfl : n = 0 := by omega
      obtain ⟨hfound, -⟩ := hall 0 le_rfl
      rw [if_pos (by rw [UInt64.lt_iff_toNat_lt]; omega)]
      simp only [hfound, if_true]
      rfl
  | succ s ih =>
    rw [collectHeightsFrom]
    rcases n with _ | n
    · rw [if_neg (by rw [UInt64.lt_iff_toNat_lt]; omega)]
      rfl
    · rw [if_pos (by rw [UInt64.lt_iff_toNat_lt]; omega)]
      obtain ⟨hfound, hle⟩ := hall (s + 1) le_rfl
      -- the count goes up by one, below the bound, so without wrapping
      have hcnt' : (cnt + 1).toNat + n = TriesInMemory.toNat := by
        rw [UInt64.toNat_add, UInt64.toNat_one, Nat.mod_eq_of_lt (by omega)]
        omega
      simp only [hfound, hle, and_self, if_true, List.singleton_append]
      rw [ih (fun i hi => hall i (by omega)) (by omega) hcnt', List.range_succ, List.map_append,
        List.reverse_append]
      have hlast : s + 1 + 1 - (n + 1) + n = s + 1 := by omega
      have hrest : ∀ i, s + 1 - n + i = s + 1 + 1 - (n + 1) + i := fun i => by omega
      simp only [List.map_singleton, List.reverse_singleton, List.singleton_append, hlast, hrest]

/-- `loadAllGroupSeeds`: the seeds of the groups at the height but the first, the top group,
which may be created at the epoch of the height; none when there is at most one. -/
def loadAllGroupSeeds (GetAllGroupSeedsByHeight : UInt64 → Except String (List Hash))
    (h : UInt64) : Except String (List Hash) := do
  let seeds ← GetAllGroupSeedsByHeight h
  return if seeds.length ≤ 1 then [] else seeds.drop 1

/-- The tailor's `groupSeeds` once `loadAllGroupSeeds` ran at the lowest collected height: its
error is dropped, which leaves no group seed. -/
def groupSeedsOf (chain : Chain) (checkpoint : UInt64)
    (GetAllGroupSeedsByHeight : UInt64 → Except String (List Hash)) : List Hash :=
  match loadAllGroupSeeds GetAllGroupSeedsByHeight
      ((collectBlockHeights chain checkpoint).getLast?.getD 0) with
  | .ok seeds => seeds
  | .error _ => []

/-- `collectUsedNodes`: the walks of the states of the collected heights, from the lowest up, with
one set of visited roots. -/
def collectUsedNodes (chain : Chain) (checkpoint : UInt64)
    (GetAllGroupSeedsByHeight : UInt64 → Except String (List Hash)) (fuel : ℕ) :
    Option (Outcome Collected) :=
  if chain.Height ≤ TriesInMemory then some (.error "height less than 980, won't prune")
  else if UInt64.ofNat (collectBlockHeights chain checkpoint).length < TriesInMemory then
    some (.error "real heights less than 980, won't prune")
  else
    (collectBlockHeights chain checkpoint).reverse.foldl (fun r h => Outcome.andThen r
      (traverseAt db decodeAccount chain (groupSeedsOf chain checkpoint GetAllGroupSeedsByHeight)
        fuel h)) (some (.ok ⟨[], []⟩))

/-- `eraseNodes`: every entry whose hash is not used is deleted. -/
def eraseNodes (t : Collected) : StateDb where
  node h := if nodeUsed t h then db.node h else none
  code h := if nodeUsed t h then db.code h else none

/-- `OfflineTailor.Pruning`: the database after the collection and, when the collection returned
without error, the erasure; none when the collection runs out of fuel. -/
def Pruning (chain : Chain) (checkpoint : UInt64)
    (GetAllGroupSeedsByHeight : UInt64 → Except String (List Hash)) (fuel : ℕ) : Option StateDb :=
  match collectUsedNodes db decodeAccount chain checkpoint GetAllGroupSeedsByHeight fuel with
  | some (.ok t) => some (eraseNodes db t)
  | some _ => some db
  | none => none

/-! ## Reads -/

/-- `getAccountObjectFromTrie` in the account trie under the root node `trie`: the account of
`addr`, when the trie holds a non-empty encoding of it that decodes. -/
def getAccountObjectFromTrie (fuel : ℕ) (trie : Node (List UInt8)) (addr : Hash) :
    Option (Option Account) :=
  (tryGet db.node fuel trie (keybytesToHex addr.bytes) 0).map fun r =>
    match r with
    | .ok (some enc) =>
      if enc.length = 0 then none
      else match decodeAccount enc with
        | .ok account => some account
        | _ => none
    | _ => none

/-- `AccountDB.GetData` in the account trie under `trie`: the value of `key` in the storage trie of
the account of `addr`; `nil` (`[]`) when there is no account or no value, or a node is missing
(`getTrie` opens the empty trie when the storage root is missing). -/
def GetData (fuel : ℕ) (trie : Node (List UInt8)) (addr : Hash) (key : List UInt8) :
    Option (List UInt8) :=
  (getAccountObjectFromTrie db decodeAccount fuel trie addr).bind fun
    | none => some []
    | some account =>
      match NewTrie db.node unresolved account.root with
      | .ok root => (tryGet db.node fuel root (keybytesToHex key) 0).map fun
        | .ok (some v) => v
        | _ => []
      | _ => some []

/-! ## What the collection keeps -/

/-- A step of the collection keeps every used hash and every visited root. -/
def Grows (t t' : Collected) : Prop :=
  (∀ x ∈ t.usedNodes, x ∈ t'.usedNodes) ∧ ∀ r ∈ t.visitedRoots, r ∈ t'.visitedRoots

theorem Grows.refl (t : Collected) : Grows t t :=
  ⟨fun _ hx => hx, fun _ hr => hr⟩

theorem Grows.trans {a b c : Collected} (h₁ : Grows a b) (h₂ : Grows b c) : Grows a c :=
  ⟨fun x hx => h₂.1 x (h₁.1 x hx), fun r hr => h₂.2 r (h₁.2 r hr)⟩

@[simp] theorem mem_usedNodes_resolveCallback {h x : Hash} {t : Collected} :
    x ∈ (resolveCallback h t).usedNodes ↔ x = h ∨ x ∈ t.usedNodes :=
  List.mem_insert_iff

@[simp] theorem resolveCallback_visitedRoots (h : Hash) (t : Collected) :
    (resolveCallback h t).visitedRoots = t.visitedRoots :=
  rfl

@[simp] theorem addVisitedRoot_usedNodes (r : Hash) (t : Collected) :
    (addVisitedRoot r t).usedNodes = t.usedNodes :=
  rfl

@[simp] theorem mem_visitedRoots_addVisitedRoot {r x : Hash} {t : Collected} :
    x ∈ (addVisitedRoot r t).visitedRoots ↔ x = r ∨ x ∈ t.visitedRoots :=
  List.mem_insert_iff

theorem grows_resolveCallback (h : Hash) (t : Collected) : Grows t (resolveCallback h t) :=
  ⟨fun x hx => by simp [hx], fun _ hr => hr⟩

theorem grows_addVisitedRoot (r : Hash) (t : Collected) : Grows t (addVisitedRoot r t) :=
  ⟨fun _ hx => hx, fun x hx => by simp [hx]⟩

/-- A storage walk only resolves. -/
theorem steps_leafCb : Steps Grows leafCb resolveCallback :=
  ⟨Grows.refl, fun _ _ _ => Grows.trans, grows_resolveCallback, fun _ _ t _ h => by
    cases h
    exact Grows.refl t⟩

variable {db decodeAccount} {groupSeeds : List Hash} {fuel : ℕ} {t t' : Collected}

theorem traverseStorage_grows {root : Hash} {keys : List (List UInt8)}
    (h : traverseStorage db fuel root keys t = some (.ok t')) : Grows t t' := by
  unfold traverseStorage at h
  split_ifs at h
  · exact traverse_steps steps_leafCb h
  · exact (Outcome.foldl_ok_steps (F := fun r key => Outcome.andThen r
      (TraverseKey db.node unresolved leafCb resolveCallback fuel root key))
      (fun r _ hr => Outcome.andThen_stopped hr _) Grows Grows.refl
      (fun _ _ _ => Grows.trans) (fun _ _ _ _ hk => traverseKey_steps steps_leafCb hk) h).1

theorem visitStorage_grows {address : Hash} {account : Account}
    (h : visitStorage db groupSeeds fuel address account t = some (.ok t')) : Grows t t' := by
  unfold visitStorage at h
  split_ifs at h
  · split at h
    · obtain ⟨t₁, h₁, h₂⟩ := Outcome.andThen_eq_ok.mp h
      cases h₂
      exact (traverseStorage_grows h₁).trans (grows_addVisitedRoot _ _)
    · cases h
    · cases h
  · cases h
    exact Grows.refl t

theorem visitCode_grows {account : Account} (h : visitCode db account t = some (.ok t')) :
    Grows t t' := by
  unfold visitCode at h
  split_ifs at h
  · split at h
    · cases h
      exact grows_resolveCallback _ t
    · cases h
  · cases h
    exact Grows.refl t

theorem visitAccount_grows {key value : List UInt8}
    (h : visitAccount db decodeAccount groupSeeds fuel key value t = some (.ok t')) :
    Grows t t' := by
  unfold visitAccount at h
  split at h
  · obtain ⟨t₁, h₁, h₂⟩ := Outcome.andThen_eq_ok.mp h
    exact (visitStorage_grows h₁).trans (visitCode_grows h₂)
  · cases h
  · cases h

/-- At an account whose storage root was visited and which has no code, the callback does
nothing. -/
theorem visitAccount_of_visited {key value : List UInt8} {account : Account}
    (hdec : decodeAccount value = .ok account) (hroot : account.root ∈ t.visitedRoots)
    (hcode : account.codeHash = emptyCodeHash) :
    visitAccount db decodeAccount groupSeeds fuel key value t = some (.ok t) := by
  unfold visitAccount visitStorage visitCode
  rw [hdec]
  dsimp only
  rw [if_neg (by simp [needTraverse, hroot]), Outcome.andThen_ok, hcode, if_neg (by simp [emptyCode])]

/-- A walk of the account trie only adds to what is used and visited. -/
theorem steps_visitAccount :
    Steps Grows (visitAccount db decodeAccount groupSeeds fuel) resolveCallback :=
  ⟨Grows.refl, fun _ _ _ => Grows.trans, grows_resolveCallback,
    fun _ _ _ _ h => visitAccount_grows h⟩

/-- The walk of the account trie records the hashes it resolves. -/
theorem records_visitAccount :
    Records (fun t x => x ∈ t.usedNodes) (visitAccount db decodeAccount groupSeeds fuel)
      resolveCallback :=
  ⟨fun _ _ => by simp, fun _ _ x hx => by simp [hx],
    fun _ _ _ _ h x hx => (visitAccount_grows h).1 x hx⟩

theorem traverseAt_grows {chain : Chain} {h : UInt64}
    (ht : traverseAt db decodeAccount chain groupSeeds fuel h t = some (.ok t')) : Grows t t' := by
  unfold traverseAt at ht
  split at ht
  · cases ht
    exact Grows.refl t
  · split at ht
    · exact traverse_steps steps_visitAccount ht
    · cases ht
      exact Grows.refl t

/-- A collection that returned walked the state of every collected height, from a state it had
reached to one it went on from, for any relation that each walk keeps. -/
theorem collectUsedNodes_walks {chain : Chain} {checkpoint : UInt64}
    {seedsAt : UInt64 → Except String (List Hash)} (R : Collected → Collected → Prop)
    (hrefl : ∀ t, R t t) (htrans : ∀ a b c, R a b → R b c → R a c)
    (hstep : ∀ h t t', traverseAt db decodeAccount chain (groupSeedsOf chain checkpoint seedsAt)
      fuel h t = some (.ok t') → R t t')
    (hc : collectUsedNodes db decodeAccount chain checkpoint seedsAt fuel = some (.ok t)) :
    ∀ h ∈ collectBlockHeights chain checkpoint, ∃ t₁ t₂, R ⟨[], []⟩ t₁ ∧
      traverseAt db decodeAccount chain (groupSeedsOf chain checkpoint seedsAt) fuel h t₁ =
        some (.ok t₂) ∧ R t₂ t := by
  intro h hh
  unfold collectUsedNodes at hc
  split_ifs at hc
  · cases hc
  · cases hc
  exact (Outcome.foldl_ok_steps (F := fun r h => Outcome.andThen r
    (traverseAt db decodeAccount chain (groupSeedsOf chain checkpoint seedsAt) fuel h))
    (fun r _ hr => Outcome.andThen_stopped hr _) R hrefl htrans
    (fun b a b' _ hb => hstep a b b' hb) hc).2 h (List.mem_reverse.mpr hh)

/-! ## What the erasure keeps -/

theorem eraseNodes_node (x : Hash) :
    (eraseNodes db t).node x = if t.usedNodes.contains x then db.node x else none :=
  rfl

theorem eraseNodes_node_of_mem {x : Hash} (hx : x ∈ t.usedNodes) :
    (eraseNodes db t).node x = db.node x := by
  simp [eraseNodes_node, hx]

theorem eraseNodes_node_of_not_mem {x : Hash} (hx : x ∉ t.usedNodes) :
    (eraseNodes db t).node x = none := by
  simp [eraseNodes_node, hx]

theorem eraseNodes_node_of_none {x : Hash} (hx : db.node x = none) :
    (eraseNodes db t).node x = none := by
  simp [eraseNodes_node, hx]

/-- A root the erasure keeps, or one the database misses, opens the same after it. -/
theorem NewTrie_eraseNodes {root : Hash} (hroot : root ∈ t.usedNodes ∨ db.node root = none) :
    NewTrie (eraseNodes db t).node unresolved root = NewTrie db.node unresolved root := by
  unfold NewTrie
  rcases hroot with hroot | hroot
  · rw [eraseNodes_node_of_mem hroot]
  · rw [eraseNodes_node_of_none hroot, hroot]

/-- After a collection that walked the state of a height, the erasure keeps its account trie and
every account read in it. -/
theorem accounts_kept (hskip : ∀ x, unresolved x = true → db.node x = none) {chain : Chain}
    {h : UInt64} {t₁ t₂ : Collected}
    (ht : traverseAt db decodeAccount chain groupSeeds fuel h t₁ = some (.ok t₂))
    (hg : Grows t₂ t) :
    AccountDBAt (eraseNodes db t) chain h = AccountDBAt db chain h ∧
      ∀ trie, AccountDBAt db chain h = some trie → ∀ fuel' addr,
        getAccountObjectFromTrie (eraseNodes db t) decodeAccount fuel' trie addr =
          getAccountObjectFromTrie db decodeAccount fuel' trie addr := by
  unfold traverseAt at ht
  unfold AccountDBAt
  cases hs : chain.stateTreeAt h with
  | none => exact ⟨rfl, fun _ h => by cases h⟩
  | some root =>
    rw [hs] at ht
    dsimp only at ht ⊢
    cases hn : NewTrie db.node unresolved root with
    | ok n =>
      rw [hn] at ht
      cases fuel with
      | zero => cases ht
      | succ fuel =>
      unfold traverseAccounts Traverse at ht
      rw [Trie.traverse_hash] at ht
      obtain ⟨n', hn', hdb⟩ := visitHash_ok ht
      -- the root was resolved first, and every hash the walk resolved stays used
      have hwalk := traverse_steps steps_visitAccount hn'
      have hroot : root ∈ t.usedNodes := hg.1 _ (hwalk.1 _ (by simp))
      have hnn : n' = n := by
        unfold NewTrie at hn
        rcases hdb with ⟨hu, rfl⟩ | ⟨hu, hd⟩
        · rw [if_pos hu] at hn
          cases hn
          rfl
        · rw [if_neg (by simp [hu]), hd] at hn
          cases hn
          rfl
      subst hnn
      rw [NewTrie_eraseNodes (.inl hroot), hn]
      refine ⟨rfl, fun trie htrie fuel' addr => ?_⟩
      cases htrie
      unfold getAccountObjectFromTrie
      rw [tryGet_eq_of_traverse (fun x hx => ⟨hskip x hx, eraseNodes_node_of_none (hskip x hx)⟩)
        records_visitAccount fuel' hn' (fun x hx => eraseNodes_node_of_mem (hg.1 x hx))]
    | error m =>
      have hnone : db.node root = none := by
        unfold NewTrie at hn
        split_ifs at hn
        split at hn
        · cases hn
        · assumption
      rw [NewTrie_eraseNodes (.inr hnone), hn]
      exact ⟨rfl, fun _ h => by cases h⟩
    | panic m =>
      unfold NewTrie at hn
      split_ifs at hn
      split at hn <;> cases hn

/-- Pruning keeps every account of every collected height: the account trie of the height opens
the same, and each account reads the same. -/
theorem Pruning_keeps_accounts (hskip : ∀ x, unresolved x = true → db.node x = none)
    {chain : Chain} {checkpoint : UInt64} {seedsAt : UInt64 → Except String (List Hash)}
    {db' : StateDb} (hp : Pruning db decodeAccount chain checkpoint seedsAt fuel = some db')
    {h : UInt64} (hh : h ∈ collectBlockHeights chain checkpoint) :
    AccountDBAt db' chain h = AccountDBAt db chain h ∧
      ∀ trie, AccountDBAt db chain h = some trie → ∀ fuel' addr,
        getAccountObjectFromTrie db' decodeAccount fuel' trie addr =
          getAccountObjectFromTrie db decodeAccount fuel' trie addr := by
  unfold Pruning at hp
  split at hp
  · rename_i t hc
    cases hp
    obtain ⟨t₁, t₂, -, ht, hg⟩ := collectUsedNodes_walks Grows Grows.refl
      (fun _ _ _ => Grows.trans) (fun _ _ _ h => traverseAt_grows h) hc h hh
    exact accounts_kept hskip ht hg
  · cases hp
    exact ⟨rfl, fun _ _ _ _ => rfl⟩
  · cases hp

end Tailor

/-! ## A storage trie shared with a group-seed account

The account of the group seed `seedG` and the account `addrA` have the same storage, a `group`
entry and one DKG piece entry, so the same storage root.  The states of heights 2 to 980 hold the
group account only, the state of height 981 both.  The key walk of the group account at height 2
visits the root; at height 981 the root is not walked again for `addrA`, and the piece leaf,
off the path of `group`, is erased. -/

namespace Shared

def seedTop : Hash := BytesToHash [0x11]
def seedG : Hash := BytesToHash (0x10 :: List.replicate 31 0)
def addrA : Hash := BytesToHash (0xa0 :: List.replicate 31 0)
def root : Hash := BytesToHash [1]
def groupLeaf : Hash := BytesToHash [2]
def pieceLeaf : Hash := BytesToHash [3]
def stateBefore : Hash := BytesToHash [4]
def stateAt : Hash := BytesToHash [5]
def leafG : Hash := BytesToHash [6]
def leafA : Hash := BytesToHash [7]

/-- A DKG piece key of `core/group`: version, type, sender. -/
def pieceKey : List UInt8 := [1, 1] ++ addrA.bytes

def accountG : Account := ⟨0, 0, root, emptyCodeHash⟩
def accountA : Account := ⟨1, 5, root, emptyCodeHash⟩

/-- The RLP decoding of the two account leaves. -/
def decode (v : List UInt8) : Outcome Account :=
  if v = [1] then .ok accountG else if v = [2] then .ok accountA else .error "rlp: decode"

def storageRoot : Node (List UInt8) :=
  .full ([Node.hash pieceLeaf] ++ List.replicate 5 Node.nil ++ [Node.hash groupLeaf] ++
    List.replicate 10 Node.nil)

def stateRoot : Node (List UInt8) :=
  .full ([Node.nil, Node.hash leafG] ++ List.replicate 8 Node.nil ++ [Node.hash leafA] ++
    List.replicate 6 Node.nil)

def db : StateDb where
  node h :=
    if h = root then some storageRoot
    else if h = groupLeaf then some (.short ((keybytesToHex groupDataKey).drop 1) (.value [9]))
    else if h = pieceLeaf then some (.short ((keybytesToHex pieceKey).drop 1) (.value [7]))
    else if h = stateBefore then some (.short (keybytesToHex seedG.bytes) (.value [1]))
    else if h = stateAt then some stateRoot
    else if h = leafG then some (.short ((keybytesToHex seedG.bytes).drop 1) (.value [1]))
    else if h = leafA then some (.short ((keybytesToHex addrA.bytes).drop 1) (.value [2]))
    else none
  code _ := none

def chain : Chain where
  Height := 981
  hasHeight h := h ≤ 981
  stateTreeAt h := if h < 981 then some stateBefore else some stateAt

def seeds (_ : UInt64) : Except String (List Hash) := .ok [seedTop, seedG]

/-- What the collection keeps of the shared trie: the root visited and used, the piece leaf
unused. -/
def Kept (t : Collected) : Prop :=
  pieceLeaf ∉ t.usedNodes ∧ root ∈ t.visitedRoots ∧ root ∈ t.usedNodes

theorem Kept.resolve {x : Hash} (hx : x ≠ pieceLeaf) {t : Collected} (ht : Kept t) :
    Kept (resolveCallback x t) := by
  obtain ⟨h₁, h₂, h₃⟩ := ht
  refine ⟨?_, h₂, by simp [h₃]⟩
  simp only [mem_usedNodes_resolveCallback, not_or]
  exact ⟨fun h => hx h.symm, h₁⟩

/-- At the heights below 981 the group account's root is already visited: only the state root is
used. -/
theorem step_before {h : UInt64} (hh : h < 981) {t : Collected} (ht : Kept t) :
    traverseAt db decode chain [seedG] 8 h t = some (.ok (resolveCallback stateBefore t)) := by
  have hs : chain.stateTreeAt h = some stateBefore := if_pos hh
  unfold traverseAt
  rw [hs]
  dsimp only
  rw [show NewTrie db.node unresolved stateBefore =
    .ok (.short (keybytesToHex seedG.bytes) (.value [1])) from rfl]
  dsimp only
  unfold traverseAccounts Traverse
  rw [traverse_hash_leaf rfl rfl, List.nil_append, visitLeaf, hexToKeybytes_keybytesToHex]
  exact visitAccount_of_visited rfl ht.2.1 rfl

theorem children_cases {c : Node (List UInt8) × ℕ}
    (hc : c ∈ ([Node.nil, Node.hash leafG] ++ List.replicate 8 Node.nil ++ [Node.hash leafA] ++
      List.replicate 6 Node.nil).zipIdx) :
    c.1 = Node.nil ∨ c = (Node.hash leafG, 1) ∨ c = (Node.hash leafA, 10) := by
  simp [List.zipIdx, List.replicate] at hc
  rcases hc with rfl | rfl | rfl | rfl | rfl | rfl | rfl | rfl | rfl | rfl | rfl | rfl | rfl |
    rfl | rfl | rfl | rfl <;> simp

/-- At height 981 both accounts' root is already visited. -/
theorem step_at {h : UInt64} (hh : ¬ h < 981) {t : Collected} (ht : Kept t) :
    ∃ t', traverseAt db decode chain [seedG] 8 h t = some (.ok t') ∧ Kept t' := by
  have hs : chain.stateTreeAt h = some stateAt := if_neg hh
  unfold traverseAt
  rw [hs]
  dsimp only
  rw [show NewTrie db.node unresolved stateAt = .ok stateRoot from rfl]
  dsimp only
  unfold traverseAccounts Traverse
  rw [Trie.traverse_hash, visitHash, if_neg (by decide), show db.node stateAt = some stateRoot from rfl]
  dsimp only
  rw [stateRoot, Trie.traverse_full]
  refine Outcome.foldl_andThen_inv Kept (fun c hc b hb => ?_) (ht.resolve (by decide))
  rcases children_cases hc with hnil | rfl | rfl
  · refine ⟨b, ?_, hb⟩
    simp only [visitChild, hnil]
  · refine ⟨resolveCallback leafG b, ?_, hb.resolve (by decide)⟩
    simp only [visitChild]
    rw [traverse_hash_leaf rfl rfl,
      show [] ++ [Nat.toUInt8 1] ++ (keybytesToHex seedG.bytes).drop 1 = keybytesToHex seedG.bytes
        from rfl, visitLeaf, hexToKeybytes_keybytesToHex]
    exact visitAccount_of_visited rfl hb.2.1 rfl
  · refine ⟨resolveCallback leafA b, ?_, hb.resolve (by decide)⟩
    simp only [visitChild]
    rw [traverse_hash_leaf rfl rfl,
      show [] ++ [Nat.toUInt8 10] ++ (keybytesToHex addrA.bytes).drop 1 = keybytesToHex addrA.bytes
        from rfl, visitLeaf, hexToKeybytes_keybytesToHex]
    exact visitAccount_of_visited rfl hb.2.1 rfl

/-- Pruning erases a storage entry of a non-group account at a collected height: its storage
root was first walked along `group` only, for the group account that shares it. -/
theorem Pruning_loses_shared_storage :
    ∃ db' trie, Pruning db decode chain 981 seeds 8 = some db' ∧
      (981 : UInt64) ∈ collectBlockHeights chain 981 ∧ addrA ∉ groupSeedsOf chain 981 seeds ∧
      AccountDBAt db chain 981 = some trie ∧ AccountDBAt db' chain 981 = some trie ∧
      GetData db decode 8 trie addrA pieceKey = some [7] ∧
      GetData db' decode 8 trie addrA pieceKey = some [] := by
  -- the collected heights: from 981 down to 2
  have hle : ∀ i ≤ 981, UInt64.ofNat i ≤ (981 : UInt64) := fun i hi => by
    rw [UInt64.le_iff_toNat_le]
    rw [UInt64.toNat_ofNat_of_lt' (by unfold UInt64.size; omega)]
    exact hi
  have hheights : collectBlockHeights chain 981 =
      ((List.range 980).map fun i => UInt64.ofNat (981 + 1 - 980 + i)).reverse :=
    collectHeightsFrom_of_all (s := 981) (fun i hi => ⟨decide_eq_true (hle i hi), hle i hi⟩)
      (by omega) rfl
  have hmem : (981 : UInt64) ∈ collectBlockHeights chain 981 := by
    rw [hheights, List.mem_reverse, List.mem_map]
    exact ⟨979, List.mem_range.mpr (by omega), rfl⟩
  have hseeds : groupSeedsOf chain 981 seeds = [seedG] := rfl
  -- the collection: the key walk of the shared root at height 2, then the skips
  have hcollect : ∃ t, collectUsedNodes db decode chain 981 seeds 8 = some (.ok t) ∧ Kept t := by
    unfold collectUsedNodes
    rw [if_neg (by decide), if_neg (by
        rw [hheights, List.length_reverse, List.length_map, List.length_range]
        decide), hseeds, hheights,
      List.reverse_reverse, List.range_succ_eq_map, List.map_cons, List.foldl_cons,
      Outcome.andThen_ok,
      show traverseAt db decode chain [seedG] 8 (UInt64.ofNat (981 + 1 - 980 + 0)) ⟨[], []⟩ =
        some (.ok ⟨[groupLeaf, root, stateBefore], [root]⟩) by decide +kernel]
    refine Outcome.foldl_andThen_inv Kept (fun h _ t ht => ?_) ⟨by decide, by simp, by simp⟩
    by_cases hh : h < 981
    · exact ⟨_, step_before hh ht, ht.resolve (by decide)⟩
    · exact step_at hh ht
  obtain ⟨t, hc, ht⟩ := hcollect
  have hp : Pruning db decode chain 981 seeds 8 = some (eraseNodes db t) := by
    unfold Pruning
    rw [hc]
  have hskip : ∀ x, unresolved x = true → db.node x = none := by
    intro x hx
    simp only [unresolved, Bool.or_eq_true, beq_iff_eq] at hx
    rcases hx with rfl | rfl <;> decide
  have hroot : AccountDBAt db chain 981 = some stateRoot := rfl
  obtain ⟨hdb, hread⟩ := Pruning_keeps_accounts hskip hp hmem
  refine ⟨eraseNodes db t, stateRoot, hp, hmem, by rw [hseeds]; decide, hroot, hdb.trans hroot,
    by decide +kernel, ?_⟩
  unfold GetData
  rw [hread stateRoot hroot 8 addrA, show getAccountObjectFromTrie db decode 8 stateRoot addrA =
    some (some accountA) from rfl, Option.bind_some]
  dsimp only
  rw [show accountA.root = root from rfl, NewTrie_eraseNodes (.inl ht.2.2),
    show NewTrie db.node unresolved root = .ok storageRoot from rfl]
  dsimp only
  rw [show tryGet (eraseNodes db t).node 8 storageRoot (keybytesToHex pieceKey) 0 =
      tryGet (eraseNodes db t).node 7 (.hash pieceLeaf) (keybytesToHex pieceKey) 1 from rfl,
    tryGet, eraseNodes_node_of_not_mem ht.1]
  rfl

end Shared

end StatePrune

end Zvchain
