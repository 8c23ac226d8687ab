import Zvchain.Types.Transaction
import Zvchain.Lib.Outcome

/-!
# Trie nodes, reads and traversals (`storage/trie`)

A node of the trie is a full node with seventeen children, a short node with a key and a child,
a value, or the hash of a node stored in the node database; a child is stored in its parent
(embedded) or by its hash, as the hasher chose when it stored the parent.  Keys are hex nibbles
ending with the terminator 16 (`keybytesToHex`).

A read (`tryGet`) follows a key down from a node, resolving hashes in the database, and fails on a
node the database misses.  `traverse` resolves every hash below a node and `traverseKey` the
hashes on the path of one key; both report each hash to a callback and call another at each value.
A relation that each callback keeps is kept by the whole walk (`traverse_steps`).  A read
resolves only hashes that a traversal below the same node resolved (`tryGet_eq_of_traverse`), so
that a database that keeps those hashes answers the read the same.

The loops take a `fuel` argument: a database may name a node below itself, where Go loops for
ever, and the value callback may itself walk with fuel.  The traversals run the children of a
full node one after the other: `traverseFullNodeConcurrently` runs them at once, and the order
here is one of its schedules.  They never check hashes (`checkHash` is false).
-/

namespace Zvchain

namespace Trie

/-- A trie node: `nil`, `valueNode`, `shortNode`, `fullNode` and `hashNode`. -/
inductive Node (V : Type) where
  | nil
  | value (v : V)
  | short (key : List UInt8) (val : Node V)
  | full (children : List (Node V))
  | hash (h : Hash)
  deriving Repr

/-- `keybytesToHex`: two nibbles a byte, then the terminator. -/
def keybytesToHex (str : List UInt8) : List UInt8 :=
  str.flatMap (fun b => [b / 16, b % 16]) ++ [16]

def hasTerm (s : List UInt8) : Bool := s.getLast? == some 16

/-- `decodeNibbles`: two nibbles a byte. -/
def decodeNibbles : List UInt8 → List UInt8
  | a :: b :: rest => (a <<< 4 ||| b) :: decodeNibbles rest
  | _ => []

/-- `hexToKeybytes`, which panics on a key of odd length. -/
def hexToKeybytes (hex : List UInt8) : Outcome (List UInt8) :=
  let hex := if hasTerm hex then hex.dropLast else hex
  if hex.length % 2 ≠ 0 then .panic "can't convert hex key of odd length"
  else .ok (decodeNibbles hex)

set_option maxRecDepth 10000 in
/-- A byte is its two nibbles put back together. -/
theorem nibbles_byte (b : UInt8) : (b / 16) <<< 4 ||| b % 16 = b := by
  revert b
  decide

theorem decodeNibbles_flatMap (k : List UInt8) :
    decodeNibbles (k.flatMap fun b => [b / 16, b % 16]) = k := by
  induction k with
  | nil => rfl
  | cons b k ih =>
    rw [List.flatMap_cons]
    show decodeNibbles (b / 16 :: b % 16 :: k.flatMap fun b => [b / 16, b % 16]) = _
    rw [decodeNibbles, ih, nibbles_byte]

/-- The key bytes of the hex form of a key are the key. -/
@[simp] theorem hexToKeybytes_keybytesToHex (k : List UInt8) :
    hexToKeybytes (keybytesToHex k) = .ok k := by
  have hlen : (k.flatMap fun b => [b / 16, b % 16]).length = 2 * k.length := by
    induction k with
    | nil => rfl
    | cons b k ih =>
      rw [List.flatMap_cons, List.length_append, ih, List.length_cons]
      simp only [List.length_cons, List.length_nil]
      omega
  have hterm : hasTerm (keybytesToHex k) = true := by
    simp [hasTerm, keybytesToHex]
  unfold hexToKeybytes
  rw [if_pos hterm, keybytesToHex, List.dropLast_concat, if_neg (by omega), decodeNibbles_flatMap]

/-- `emptyRoot`, the root of the empty trie. -/
def emptyRoot : Hash := BytesToHash
  [0x56, 0xe8, 0x1f, 0x17, 0x1b, 0xcc, 0x55, 0xa6, 0xff, 0x83, 0x45, 0xe6, 0x92, 0xc0, 0xf8, 0x6e,
   0x5b, 0x48, 0xe0, 0x1b, 0x99, 0x6c, 0xad, 0xc0, 0x01, 0x62, 0x2f, 0xb5, 0xe3, 0x63, 0xb4, 0x21]

/-- The hashes a trie does not resolve: `common.Hash{}` and `emptyRoot`. -/
def unresolved (h : Hash) : Bool := h == BytesToHash [] || h == emptyRoot

variable {V σ : Type}

section Nodes

-- the node database: the node stored under a hash
variable (db : Hash → Option (Node V))

/-- `NewTrie`: the root node, resolved unless the root is the zero hash or the empty root (`skip`);
`MissingNodeError` when the database misses it. -/
def NewTrie (skip : Hash → Bool) (root : Hash) : Outcome (Node V) :=
  if skip root then .ok .nil
  else match db root with
    | some n => .ok n
    | none => .error "missing trie node"

/-- `tryGet` of the hex key `key` from position `pos`: the value, or `nil` when the key is not in
the trie. -/
def tryGet : ℕ → Node V → List UInt8 → ℕ → Option (Outcome (Option V))
  | 0, _, _, _ => none
  | _ + 1, .nil, _, _ => some (.ok none)
  | _ + 1, .value v, _, _ => some (.ok (some v))
  | fuel + 1, .short nkey val, key, pos =>
    if key.length - pos < nkey.length ∨ nkey ≠ (key.drop pos).take nkey.length then
      some (.ok none)
    else tryGet fuel val key (pos + nkey.length)
  | fuel + 1, .full children, key, pos =>
    match Outcome.index key pos >>= fun i => Outcome.index children i.toNat with
    | .ok child => tryGet fuel child key (pos + 1)
    | .error m => some (.error m)
    | .panic m => some (.panic m)
  | fuel + 1, .hash h, key, pos =>
    match db h with
    | some child => tryGet fuel child key pos
    | none => some (.error "missing trie node")

section Traverse

-- `skip` holds of the zero hash and the empty root, which the traversals do not resolve;
-- `onleaf` is called at each value with its key, and `resolve` with each hash met
variable (skip : Hash → Bool) (onleaf : List UInt8 → V → σ → Option (Outcome σ))
  (resolve : Hash → σ → σ)

/-- The callback at a value, with the key bytes of the hex path to it. -/
def visitLeaf (hex : List UInt8) (v : V) (s : σ) : Option (Outcome σ) :=
  match hexToKeybytes hex with
  | .ok k => onleaf k v s
  | .error m => some (.error m)
  | .panic m => some (.panic m)

/-- A hash met by a walk: resolved in the database unless it is skipped, reported to `resolve`,
and the walk goes on below it. -/
def visitHash (walk : Node V → σ → Option (Outcome σ)) (h : Hash) (s : σ) : Option (Outcome σ) :=
  if skip h then walk .nil (resolve h s)
  else match db h with
    | some n => walk n (resolve h s)
    | none => some (.error "missing trie node")

/-- A child of a full node met by a walk, with its index: a `nil` child is passed over. -/
def visitChild (walk : Node V → List UInt8 → σ → Option (Outcome σ)) (acc : List UInt8)
    (c : Node V × ℕ) (s : σ) : Option (Outcome σ) :=
  match c.1 with
  | .nil => some (.ok s)
  | child => walk child (acc ++ [c.2.toUInt8]) s

/-- `traverse` from a node whose path so far is `acc`. -/
def traverse : ℕ → Node V → List UInt8 → σ → Option (Outcome σ)
  | 0, _, _, _ => none
  | _ + 1, .nil, _, s => some (.ok s)
  | _ + 1, .value v, acc, s => visitLeaf onleaf acc v s
  | fuel + 1, .short key val, acc, s => traverse fuel val (acc ++ key) s
  | fuel + 1, .full children, acc, s =>
    children.zipIdx.foldl (fun r c => Outcome.andThen r
      (visitChild (fun n a t => traverse fuel n a t) acc c)) (some (.ok s))
  | fuel + 1, .hash h, acc, s => visitHash db skip resolve (fun n t => traverse fuel n acc t) h s

-- one step of the walk at each kind of node, read off the definition; the proofs below cite
-- these rather than unfold `traverse`
theorem traverse_value (fuel : ℕ) (v : V) (acc : List UInt8) (s : σ) :
    traverse db skip onleaf resolve (fuel + 1) (.value v) acc s = visitLeaf onleaf acc v s := rfl

theorem traverse_short (fuel : ℕ) (key : List UInt8) (val : Node V) (acc : List UInt8) (s : σ) :
    traverse db skip onleaf resolve (fuel + 1) (.short key val) acc s =
      traverse db skip onleaf resolve fuel val (acc ++ key) s := rfl

theorem traverse_full (fuel : ℕ) (children : List (Node V)) (acc : List UInt8) (s : σ) :
    traverse db skip onleaf resolve (fuel + 1) (.full children) acc s =
      children.zipIdx.foldl (fun r c => Outcome.andThen r
        (visitChild (fun n a t => traverse db skip onleaf resolve fuel n a t) acc c))
        (some (.ok s)) := rfl

theorem traverse_hash (fuel : ℕ) (h : Hash) (acc : List UInt8) (s : σ) :
    traverse db skip onleaf resolve (fuel + 1) (.hash h) acc s =
      visitHash db skip resolve (fun n t => traverse db skip onleaf resolve fuel n acc t) h s :=
  rfl

/-- `traverseKey` of the hex key `key` from position `pos`. -/
def traverseKey : ℕ → Node V → List UInt8 → ℕ → σ → Option (Outcome σ)
  | 0, _, _, _, _ => none
  | _ + 1, .nil, _, _, s => some (.ok s)
  | _ + 1, .value v, key, _, s => visitLeaf onleaf key v s
  | fuel + 1, .short nkey val, key, pos, s =>
    if key.length - pos < nkey.length ∨ nkey ≠ (key.drop pos).take nkey.length then
      some (.error "key not found")
    else traverseKey fuel val key (pos + nkey.length) s
  | fuel + 1, .full children, key, pos, s =>
    match Outcome.index key pos >>= fun i => Outcome.index children i.toNat with
    | .ok child => traverseKey fuel child key (pos + 1) s
    | .error m => some (.error m)
    | .panic m => some (.panic m)
  | fuel + 1, .hash h, key, pos, s =>
    visitHash db skip resolve (fun n t => traverseKey fuel n key pos t) h s

/-- `Trie.Traverse`: from the root hash. -/
def Traverse (fuel : ℕ) (root : Hash) (s : σ) : Option (Outcome σ) :=
  traverse db skip onleaf resolve fuel (.hash root) [] s

/-- `Trie.TraverseKey`: from the root hash, along the hex form of the key. -/
def TraverseKey (fuel : ℕ) (root : Hash) (key : List UInt8) (s : σ) : Option (Outcome σ) :=
  traverseKey db skip onleaf resolve fuel (.hash root) (keybytesToHex key) 0 s

end Traverse

end Nodes

/-! ## What a walk keeps -/

/-- A relation that holds from the state before each callback to the state after it, reflexive
and transitive: what a walk keeps from its start to its end. -/
structure Steps (R : σ → σ → Prop) (onleaf : List UInt8 → V → σ → Option (Outcome σ))
    (resolve : Hash → σ → σ) : Prop where
  refl : ∀ s, R s s
  trans : ∀ a b c, R a b → R b c → R a c
  resolve_step : ∀ h s, R s (resolve h s)
  onleaf_step : ∀ k v s s', onleaf k v s = some (.ok s') → R s s'

/-- `used s` is a set of hashes that `resolve` adds to, and that neither `resolve` nor `onleaf`
takes from. -/
structure Records (used : σ → Hash → Prop) (onleaf : List UInt8 → V → σ → Option (Outcome σ))
    (resolve : Hash → σ → σ) : Prop where
  resolve_self : ∀ h s, used (resolve h s) h
  resolve_mono : ∀ h s x, used s x → used (resolve h s) x
  onleaf_mono : ∀ k v s s', onleaf k v s = some (.ok s') → ∀ x, used s x → used s' x

section Steps

variable {db : Hash → Option (Node V)} {skip : Hash → Bool}
  {onleaf : List UInt8 → V → σ → Option (Outcome σ)} {resolve : Hash → σ → σ}
  {R : σ → σ → Prop}

theorem Records.steps {used : σ → Hash → Prop} (hr : Records used onleaf resolve) :
    Steps (fun s s' => ∀ x, used s x → used s' x) onleaf resolve :=
  ⟨fun _ _ hx => hx, fun _ _ _ h₁ h₂ x hx => h₂ x (h₁ x hx), hr.resolve_mono, hr.onleaf_mono⟩

theorem visitLeaf_ok {hex : List UInt8} {v : V} {s s' : σ}
    (h : visitLeaf onleaf hex v s = some (.ok s')) : ∃ k, onleaf k v s = some (.ok s') := by
  unfold visitLeaf at h
  split at h
  · exact ⟨_, h⟩
  · cases h
  · cases h

theorem visitHash_ok {walk : Node V → σ → Option (Outcome σ)} {h : Hash} {s s' : σ}
    (hw : visitHash db skip resolve walk h s = some (.ok s')) :
    ∃ n, walk n (resolve h s) = some (.ok s') ∧
      (skip h = true ∧ n = .nil ∨ skip h = false ∧ db h = some n) := by
  unfold visitHash at hw
  by_cases hs : skip h = true
  · rw [if_pos hs] at hw
    exact ⟨.nil, hw, .inl ⟨hs, rfl⟩⟩
  · rw [if_neg hs] at hw
    cases hn : db h with
    | none =>
      rw [hn] at hw
      cases hw
    | some n =>
      rw [hn] at hw
      exact ⟨n, hw, .inr ⟨Bool.eq_false_iff.mpr hs, rfl⟩⟩

theorem visitChild_ok {walk : Node V → List UInt8 → σ → Option (Outcome σ)} {acc : List UInt8}
    {c : Node V × ℕ} {s s' : σ} (h : visitChild walk acc c s = some (.ok s')) :
    c.1 = .nil ∧ s' = s ∨ walk c.1 (acc ++ [c.2.toUInt8]) s = some (.ok s') := by
  unfold visitChild at h
  split at h
  · cases h
    exact .inl ⟨‹_›, rfl⟩
  · exact .inr h

/-- A walk keeps every relation its callbacks keep. -/
theorem traverse_steps (hR : Steps R onleaf resolve) {fuel : ℕ} :
    ∀ {n : Node V} {acc : List UInt8} {s s' : σ},
      traverse db skip onleaf resolve fuel n acc s = some (.ok s') → R s s' := by
  induction fuel with
  | zero =>
    intro n acc s s' h
    cases h
  | succ fuel ih =>
    intro n acc s s' h
    cases n with
    | nil =>
      cases h
      exact hR.refl s
    | value v =>
      rw [traverse_value] at h
      obtain ⟨k, hk⟩ := visitLeaf_ok h
      exact hR.onleaf_step k v s s' hk
    | short key val => exact ih h
    | full children =>
      rw [traverse_full] at h
      refine (Outcome.foldl_ok_steps (fun r c hr => Outcome.andThen_stopped hr _) R hR.refl
        hR.trans (fun b c b' _ hc => ?_) h).1
      rcases visitChild_ok hc with ⟨-, rfl⟩ | hc
      · exact hR.refl _
      · exact ih hc
    | hash k =>
      rw [traverse_hash] at h
      obtain ⟨n, hn, -⟩ := visitHash_ok h
      exact hR.trans _ _ _ (hR.resolve_step k s) (ih hn)

/-- A walk of one key keeps every relation its callbacks keep. -/
theorem traverseKey_steps (hR : Steps R onleaf resolve) {fuel : ℕ} :
    ∀ {n : Node V} {key : List UInt8} {pos : ℕ} {s s' : σ},
      traverseKey db skip onleaf resolve fuel n key pos s = some (.ok s') → R s s' := by
  induction fuel with
  | zero =>
    intro n key pos s s' h
    cases h
  | succ fuel ih =>
    intro n key pos s s' h
    cases n with
    | nil =>
      cases h
      exact hR.refl s
    | value v =>
      rw [traverseKey] at h
      obtain ⟨k, hk⟩ := visitLeaf_ok h
      exact hR.onleaf_step k v s s' hk
    | short nkey val =>
      rw [traverseKey] at h
      by_cases hm : key.length - pos < nkey.length ∨ nkey ≠ (key.drop pos).take nkey.length
      · rw [if_pos hm] at h
        cases h
      · rw [if_neg hm] at h
        exact ih h
    | full children =>
      rw [traverseKey] at h
      split at h
      · exact ih h
      · cases h
      · cases h
    | hash k =>
      rw [traverseKey] at h
      obtain ⟨n, hn, -⟩ := visitHash_ok h
      exact hR.trans _ _ _ (hR.resolve_step k s) (ih hn)

/-- A walk at a hash whose node is one value under a short key calls the value callback once. -/
theorem traverse_hash_leaf {fuel : ℕ} {h : Hash} {key : List UInt8} {v : V} {acc : List UInt8}
    {s : σ} (hs : skip h = false) (hn : db h = some (.short key (.value v))) :
    traverse db skip onleaf resolve (fuel + 3) (.hash h) acc s =
      visitLeaf onleaf (acc ++ key) v (resolve h s) := by
  rw [traverse_hash, visitHash, if_neg (by simp [hs]), hn]
  rfl

/-- Every child of a full node that a traversal went through is `nil` or traversed, from a state
the walk reached to one it goes on from. -/
theorem traverse_full_children (hR : Steps R onleaf resolve) {fuel : ℕ}
    {children : List (Node V)} {acc : List UInt8} {s s' : σ}
    (h : traverse db skip onleaf resolve (fuel + 1) (.full children) acc s = some (.ok s')) :
    ∀ c ∈ children.zipIdx, c.1 = .nil ∨ ∃ b₁ b₂, R s b₁ ∧
      traverse db skip onleaf resolve fuel c.1 (acc ++ [c.2.toUInt8]) b₁ = some (.ok b₂) ∧
      R b₂ s' := by
  rw [traverse_full] at h
  intro c hc
  obtain ⟨b₁, b₂, hb₁, hstep, hb₂⟩ :=
    (Outcome.foldl_ok_steps (fun r c hr => Outcome.andThen_stopped hr _) R hR.refl hR.trans
      (fun b c b' _ hc => by
        rcases visitChild_ok hc with ⟨-, rfl⟩ | hc
        · exact hR.refl _
        · exact traverse_steps hR hc) h).2 c hc
  rcases visitChild_ok hstep with ⟨hnil, -⟩ | hstep
  · exact .inl hnil
  · exact .inr ⟨b₁, b₂, hb₁, hstep, hb₂⟩

theorem mem_zipIdx_of_index {children : List (Node V)} {key : List UInt8} {pos : ℕ}
    {child : Node V}
    (h : (Outcome.index key pos >>= fun i => Outcome.index children i.toNat) = .ok child) :
    ∃ i, (child, i) ∈ children.zipIdx := by
  obtain ⟨i, -, hi⟩ := Outcome.bind_eq_ok.mp h
  exact ⟨i.toNat, List.mem_zipIdx_iff_getElem?.mpr (Outcome.index_eq_ok.mp hi)⟩

section Agree

-- the hashes a traversal skips are not in either database
variable {used : σ → Hash → Prop} {db' : Hash → Option (Node V)}
  (hskip : ∀ h, skip h = true → db h = none ∧ db' h = none)
include hskip

/-- A read below a node that a traversal went through resolves only hashes the traversal
resolved: a database that agrees on those answers it the same. -/
theorem tryGet_eq_of_traverse (hr : Records used onleaf resolve) (fuel' : ℕ) :
    ∀ {fuel n acc s s'}, traverse db skip onleaf resolve fuel n acc s = some (.ok s') →
      (∀ h, used s' h → db' h = db h) →
      ∀ key pos, tryGet db fuel' n key pos = tryGet db' fuel' n key pos := by
  -- on the fuel of the read: the traversal went below each node the read reaches
  induction fuel' with
  | zero => intros; rfl
  | succ fuel' ih =>
    intro fuel n acc s s' h hagree key pos
    cases fuel with
    | zero => cases h
    | succ fuel =>
    cases n with
    | nil => rfl
    | value v => rfl
    | short nkey val =>
      rw [traverse_short] at h
      rw [tryGet, tryGet]
      split_ifs
      · rfl
      · exact ih h hagree key _
    | full children =>
      rw [tryGet, tryGet]
      cases hx : (Outcome.index key pos >>= fun i => Outcome.index children i.toNat) with
      | ok child =>
        dsimp only
        obtain ⟨i, hi⟩ := mem_zipIdx_of_index hx
        rcases traverse_full_children hr.steps h (child, i) hi with hnil | ⟨b₁, b₂, -, hc, hb₂⟩
        · dsimp only at hnil
          subst hnil
          cases fuel' <;> rfl
        · exact ih hc (fun x hx => hagree x (hb₂ x hx)) key (pos + 1)
      | error m => rfl
      | panic m => rfl
    | hash k =>
      rw [traverse_hash] at h
      obtain ⟨n, hn, hdb⟩ := visitHash_ok h
      rw [tryGet, tryGet]
      rcases hdb with ⟨hs, -⟩ | ⟨-, hk⟩
      · rw [(hskip k hs).1, (hskip k hs).2]
      · have hused : used s' k := traverse_steps hr.steps hn k (hr.resolve_self k s)
        rw [hagree k hused, hk]
        exact ih hn hagree key pos

end Agree

end Steps

end Trie

end Zvchain
