import Zvchain.Storage.Trie

/-!
# Updates of the trie (`storage/trie/trie.go`, `storage/trie/encoding.go`)

`Trie.insert` and `Trie.delete` rebuild the nodes on the path of a hex key and return whether
the trie changed with the new node.  A hash met on the path is resolved in the node database and
replaced by the node it names, or the update fails with `MissingNodeError`.  `insert` branches a
short node out into a full node where the keys part, and `delete` folds a full node left with one
child into a short node, merged with that child when it is a short node.  `TryUpdate` inserts a
non-empty value and deletes on an empty one.

The node flags (the cached hash, the dirty bit and the cache generation) are left out: `insert`,
`delete` and `tryGet` never read them.  The `prefix` argument only names the path of a missing
node in the error, which is the same text for every missing node here, and is left out too.
A hash may name a node above itself in a database, where Go recurses for ever, so both
functions take `fuel`.
-/

namespace Zvchain

namespace Trie

variable {V : Type}

/-- `prefixLen`: the length of the common prefix of two keys. -/
def prefixLen : List UInt8 → List UInt8 → ℕ
  | a :: as, b :: bs => if a = b then prefixLen as bs + 1 else 0
  | _, _ => 0

/-- `&fullNode{}`: seventeen `nil` children. -/
def emptyChildren : List (Node V) := List.replicate 17 .nil

/-- `n.Children[i] = c`, which panics out of range. -/
def setChild (children : List (Node V)) (i : ℕ) (c : Node V) : Outcome (List (Node V)) :=
  if i < children.length then .ok (children.set i c) else .panic "runtime error: index out of range"

/-- `cld != nil`, negated. -/
def Node.isNil : Node V → Bool
  | .nil => true
  | _ => false

/-- The loop of `delete` over the children of a full node: the index of the only child that is
not `nil`, `-1` when there is none, and `-2` from the second one on. -/
def remainingPos (children : List (Node V)) : ℤ :=
  children.zipIdx.foldl (fun pos c =>
    if pos = -2 ∨ c.1.isNil then pos else if pos = -1 then c.2 else -2) (-1)

section Database

-- the node database: the node stored under a hash
variable (db : Hash → Option (Node V))

/-- `resolve`: a hash is looked up in the node database, any other node is itself. -/
def resolve (n : Node V) : Outcome (Node V) :=
  match n with
  | .hash h =>
    match db h with
    | some c => .ok c
    | none => .error "missing trie node"
  | n => .ok n

/-- The end of the key in `insert`: the value replaces what is there, and the trie changes unless
a value equal to it was there. -/
def insertValue [DecidableEq V] (n value : Node V) : Outcome (Bool × Node V) :=
  match n with
  | .value v =>
    match value with
    | .value v' => .ok (decide (v ≠ v'), value)
    | _ => .panic "interface conversion: trie.node is not trie.valueNode"
  | _ => .ok (true, value)

/-- `Trie.insert` of `value` under the hex key `key` below `n`. -/
def insert [DecidableEq V] : ℕ → Node V → List UInt8 → Node V → Option (Outcome (Bool × Node V))
  | 0, _, _, _ => none
  | _ + 1, n, [], value => some (insertValue n value)
  | fuel + 1, .short nkey nval, key@(_ :: _), value =>
    let matchlen := prefixLen key nkey
    if matchlen = nkey.length then
      -- the whole short key matches: insert below it
      Outcome.andThen (insert fuel nval (key.drop matchlen) value) fun r =>
        some (.ok (if r.1 then (true, .short nkey r.2) else (false, .short nkey nval)))
    else
      -- branch out at the index where the keys differ
      Outcome.andThen (insert fuel .nil (nkey.drop (matchlen + 1)) nval) fun r₁ =>
      Outcome.andThen (some (Outcome.index nkey matchlen >>= fun i =>
        setChild emptyChildren i.toNat r₁.2)) fun branch =>
      Outcome.andThen (some (Outcome.index key matchlen)) fun i =>
      Outcome.andThen (insert fuel .nil (key.drop (matchlen + 1)) value) fun r₂ =>
      Outcome.andThen (some (setChild branch i.toNat r₂.2)) fun branch =>
        some (.ok (true,
          if matchlen = 0 then .full branch else .short (key.take matchlen) (.full branch)))
  | fuel + 1, .full children, k :: ks, value =>
    Outcome.andThen (some (Outcome.index children k.toNat)) fun c =>
    Outcome.andThen (insert fuel c ks value) fun r =>
      if r.1 then some (setChild children k.toNat r.2 >>= fun cs => pure (true, .full cs))
      else some (.ok (false, .full children))
  | _ + 1, .nil, key@(_ :: _), value => some (.ok (true, .short key value))
  | fuel + 1, .hash h, key@(_ :: _), value =>
    match db h with
    | none => some (.error "missing trie node")
    | some rn =>
      Outcome.andThen (insert fuel rn key value) fun r =>
        some (.ok (if r.1 then (true, r.2) else (false, rn)))
  | _ + 1, .value _, _ :: _, _ => some (.panic "%T: invalid node: %v")

/-- The end of `delete` at a full node whose children are now `cs`: a node left with one child is
replaced by a short node to it, merged with the child when that is a short node. -/
def collapse (cs : List (Node V)) : Outcome (Bool × Node V) :=
  let pos := remainingPos cs
  if 0 ≤ pos then
    let p := pos.toNat
    if p ≠ 16 then
      Outcome.index cs p >>= resolve db >>= fun cnode =>
        match cnode with
        | .short ckey cval => pure (true, .short (p.toUInt8 :: ckey) cval)
        | _ => Outcome.index cs p >>= fun c => pure (true, .short [p.toUInt8] c)
    else Outcome.index cs p >>= fun c => pure (true, .short [p.toUInt8] c)
  else pure (true, .full cs)

/-- `Trie.delete` of the hex key `key` below `n`. -/
def delete : ℕ → Node V → List UInt8 → Option (Outcome (Bool × Node V))
  | 0, _, _ => none
  | fuel + 1, .short nkey nval, key =>
    let matchlen := prefixLen key nkey
    if matchlen < nkey.length then some (.ok (false, .short nkey nval))
    else if matchlen = key.length then some (.ok (true, .nil))
    else
      Outcome.andThen (delete fuel nval (key.drop nkey.length)) fun r =>
        if !r.1 then some (.ok (false, .short nkey nval))
        else
          match r.2 with
          | .short ckey cval => some (.ok (true, .short (nkey ++ ckey) cval))
          | child => some (.ok (true, .short nkey child))
  | fuel + 1, .full children, key =>
    Outcome.andThen (some (Outcome.index key 0)) fun k =>
    Outcome.andThen (some (Outcome.index children k.toNat)) fun c =>
    Outcome.andThen (delete fuel c (key.drop 1)) fun r =>
      if !r.1 then some (.ok (false, .full children))
      else Outcome.andThen (some (setChild children k.toNat r.2)) fun cs => some (collapse db cs)
  | _ + 1, .value _, _ => some (.ok (true, .nil))
  | _ + 1, .nil, _ => some (.ok (false, .nil))
  | fuel + 1, .hash h, key =>
    match db h with
    | none => some (.error "missing trie node")
    | some rn =>
      Outcome.andThen (delete fuel rn key) fun r =>
        some (.ok (if r.1 then (true, r.2) else (false, rn)))

end Database

/-- `Trie.TryUpdate` from the root node: the new root.  A non-empty value is inserted under the
hex form of the key, and an empty one deletes the key. -/
def TryUpdate (db : Hash → Option (Node (List UInt8))) (fuel : ℕ) (root : Node (List UInt8))
    (key value : List UInt8) : Option (Outcome (Node (List UInt8))) :=
  let k := keybytesToHex key
  if value.length ≠ 0 then
    Outcome.andThen (insert db fuel root k (.value value)) fun r => some (.ok r.2)
  else Outcome.andThen (delete db fuel root k) fun r => some (.ok r.2)

/-- `Trie.TryDelete` from the root node. -/
def TryDelete (db : Hash → Option (Node (List UInt8))) (fuel : ℕ) (root : Node (List UInt8))
    (key : List UInt8) : Option (Outcome (Node (List UInt8))) :=
  Outcome.andThen (delete db fuel root (keybytesToHex key)) fun r => some (.ok r.2)

/-- `Trie.TryGet` from the root node. -/
def TryGet (db : Hash → Option (Node V)) (fuel : ℕ) (root : Node V) (key : List UInt8) :
    Option (Outcome (Option V)) :=
  tryGet db fuel root (keybytesToHex key) 0

/-! ## The storage trie of an account (`storage/account/account_object.go`) -/

/-- `accountObject.updateTrie`: each dirty entry is written into the storage trie in turn, a nil
value by `TryDelete` (a nil and an empty value are one here, as in the account database).  A
write that fails leaves the root as it was and the loop goes on; the first error is kept
(`setError`).  Go ranges over the `dirtyStorage` map in no fixed order, and `dirty` is the order
of one run. -/
def updateTrie (db : Hash → Option (Node (List UInt8))) (fuel : ℕ) :
    Node (List UInt8) → Option String → List (List UInt8 × List UInt8) →
      Option (Outcome (Node (List UInt8) × Option String))
  | root, dbErr, [] => some (.ok (root, dbErr))
  | root, dbErr, (key, value) :: dirty =>
    match (if value = [] then TryDelete db fuel root key else TryUpdate db fuel root key value) with
    | some (.ok root') => updateTrie db fuel root' dbErr dirty
    | some (.error m) => updateTrie db fuel root (dbErr.or (some m)) dirty
    | some (.panic m) => some (.panic m)
    | none => none

/-- `TryDelete` is `TryUpdate` with an empty value. -/
theorem tryDelete_eq_tryUpdate (db : Hash → Option (Node (List UInt8))) (fuel : ℕ)
    (root : Node (List UInt8)) (key : List UInt8) :
    TryDelete db fuel root key = TryUpdate db fuel root key [] := rfl

/-! ## Small lemmas of the definitions -/

theorem prefixLen_le_left (a b : List UInt8) : prefixLen a b ≤ a.length := by
  induction a generalizing b with
  | nil => cases b <;> simp [prefixLen]
  | cons x xs ih =>
    cases b with
    | nil => simp [prefixLen]
    | cons y ys =>
      unfold prefixLen
      split_ifs
      · simp [ih ys]
      · omega

theorem prefixLen_le_right (a b : List UInt8) : prefixLen a b ≤ b.length := by
  induction a generalizing b with
  | nil => cases b <;> simp [prefixLen]
  | cons x xs ih =>
    cases b with
    | nil => simp [prefixLen]
    | cons y ys =>
      unfold prefixLen
      split_ifs
      · simp [ih ys]
      · omega

theorem prefixLen_comm (a b : List UInt8) : prefixLen a b = prefixLen b a := by
  induction a generalizing b with
  | nil => cases b <;> rfl
  | cons x xs ih =>
    cases b with
    | nil => rfl
    | cons y ys =>
      by_cases h : x = y
      · subst h
        simp [prefixLen, ih]
      · simp [prefixLen, h, Ne.symm h]

/-- The keys agree up to `prefixLen`. -/
theorem take_prefixLen (a b : List UInt8) : a.take (prefixLen a b) = b.take (prefixLen a b) := by
  induction a generalizing b with
  | nil => simp [prefixLen]
  | cons x xs ih =>
    cases b with
    | nil => simp [prefixLen]
    | cons y ys =>
      unfold prefixLen
      split_ifs with h
      · simp [h, ih ys]
      · simp

/-- Past `prefixLen`, within both keys, the keys differ. -/
theorem getElem_prefixLen_ne (a b : List UInt8) (ha : prefixLen a b < a.length)
    (hb : prefixLen a b < b.length) : a[prefixLen a b] ≠ b[prefixLen a b] := by
  induction a generalizing b with
  | nil => simp at ha
  | cons x xs ih =>
    cases b with
    | nil => simp at hb
    | cons y ys =>
      unfold prefixLen at ha hb ⊢
      split_ifs with h
      · simp only [List.getElem_cons_succ]
        simp only [h, if_true, List.length_cons] at ha hb
        exact ih ys (by omega) (by omega)
      · simpa using h

/-- `prefixLen` is the whole first key exactly when it is a prefix of the second. -/
theorem prefixLen_eq_length_iff (a b : List UInt8) : prefixLen a b = a.length ↔ a <+: b := by
  induction a generalizing b with
  | nil => simp [prefixLen]
  | cons x xs ih =>
    cases b with
    | nil => simp [prefixLen]
    | cons y ys =>
      unfold prefixLen
      split_ifs with h
      · subst h
        simp [ih ys, List.cons_prefix_cons]
      · simp [List.cons_prefix_cons, h]

theorem Node.isNil_iff {c : Node V} : c.isNil = true ↔ c = .nil := by
  cases c <;> simp [Node.isNil]

@[simp] theorem length_emptyChildren : (emptyChildren : List (Node V)).length = 17 := by
  simp [emptyChildren]

theorem setChild_of_lt {children : List (Node V)} {i : ℕ} (h : i < children.length) (c : Node V) :
    setChild children i c = .ok (children.set i c) := by
  simp [setChild, h]

section Database

variable (db : Hash → Option (Node V))

end Database

end Trie

end Zvchain
