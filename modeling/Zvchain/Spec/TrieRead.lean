import Zvchain.Storage.TrieUpdate
import Zvchain.Lib.Entries

/-!
# What a trie holds

`Lookup db n key r` says that a read of the hex key `key` below the node `n` finds `r`: `some v`
at a value, `none` where the key leaves the trie.  It is the meaning of `tryGet` without the
fuel: a read that returns finds what `Lookup` says (`lookup_of_tryGet`), and every read that
`Lookup` allows returns with enough fuel (`tryGet_of_lookup`).  A hash the database misses, or one
that names a node above itself, holds no key.  Seen as a store, a short node is its child moved
under the short key (`lookup_short`).

Keys are hex keys (`HexKey`): nibbles, then the terminator 16, so that no key is a prefix of
another (`HexKey.eq_of_isPrefix`).  A trie is well formed at the path `p` that leads to it (`WF`)
when its values sit at hex keys, its short keys extend the path towards hex keys, and its full
nodes have seventeen children below a path of nibbles.  The keys a node at `p` is read with are
those that complete `p` to a hex key (`validFrom p`).
-/

namespace Zvchain

namespace Trie

open Entries

variable {V : Type}

/-! ## Hex keys -/

/-- A path of nibbles, without the terminator. -/
def Nibbles (p : List UInt8) : Prop := ∀ x ∈ p, x < 16

/-- The hex form of a key: nibbles, then the terminator 16. -/
def HexKey (k : List UInt8) : Prop := ∃ ns, Nibbles ns ∧ k = ns ++ [16]

/-- A path that leads to hex keys. -/
def HexPrefix (p : List UInt8) : Prop := ∃ rest, HexKey (p ++ rest)

/-- The keys read below the path `p`: those that complete it to a hex key. -/
def validFrom (p : List UInt8) : Set (List UInt8) := {k | HexKey (p ++ k)}

theorem hexKey_keybytesToHex (key : List UInt8) : HexKey (keybytesToHex key) := by
  refine ⟨key.flatMap fun b => [b / 16, b % 16], ?_, rfl⟩
  intro x hx
  obtain ⟨b, -, hb⟩ := List.mem_flatMap.mp hx
  rcases List.mem_pair.mp hb with rfl | rfl
  · rw [UInt8.lt_iff_toNat_lt, UInt8.toNat_div]
    have := b.toNat_lt
    simp
    omega
  · rw [UInt8.lt_iff_toNat_lt, UInt8.toNat_mod]
    simp
    omega

theorem keybytesToHex_injective : Function.Injective keybytesToHex := by
  intro a b h
  have h' := congrArg hexToKeybytes h
  rw [hexToKeybytes_keybytesToHex, hexToKeybytes_keybytesToHex] at h'
  exact Outcome.ok.inj h'

theorem Nibbles.append {p q : List UInt8} (hp : Nibbles p) (hq : Nibbles q) : Nibbles (p ++ q) := by
  intro x hx
  rcases List.mem_append.mp hx with hx | hx
  · exact hp x hx
  · exact hq x hx

theorem Nibbles.of_append {p q : List UInt8} (h : Nibbles (p ++ q)) : Nibbles p :=
  fun x hx => h x (List.mem_append_left q hx)

theorem HexKey.not_nibbles {k : List UInt8} (h : HexKey k) : ¬ Nibbles k := by
  obtain ⟨ns, -, rfl⟩ := h
  intro hk
  exact absurd (hk 16 (by simp)) (by decide)

/-- No hex key is a prefix of another. -/
theorem HexKey.eq_of_isPrefix {a b : List UInt8} (ha : HexKey a) (hb : HexKey b) (h : a <+: b) :
    a = b := by
  obtain ⟨t, rfl⟩ := h
  rcases List.eq_nil_or_concat t with rfl | ⟨t', x, rfl⟩
  · simp
  · exfalso
    obtain ⟨ns, -, rfl⟩ := ha
    obtain ⟨ms, hms, hb⟩ := hb
    have heq : (ns ++ [16] ++ t') ++ [x] = ms ++ [16] := by simpa using hb
    have hms' := (List.append_inj' heq rfl).1
    exact absurd (hms 16 (by rw [← hms']; simp)) (by decide)

/-- A hex key continues past a path only when the path is of nibbles. -/
theorem HexKey.nibbles_of_ne_nil {p k : List UInt8} (h : HexKey (p ++ k)) (hk : k ≠ []) :
    Nibbles p := by
  obtain ⟨ns, hns, heq⟩ := h
  rcases List.eq_nil_or_concat k with rfl | ⟨k', y, rfl⟩
  · exact absurd rfl hk
  · have heq' : (p ++ k') ++ [y] = ns ++ [16] := by simpa using heq
    rw [← (List.append_inj' heq' rfl).1] at hns
    exact hns.of_append

/-- Every element of a hex key indexes the children of a full node. -/
theorem HexKey.toNat_lt {k : List UInt8} (h : HexKey k) {x : UInt8} (hx : x ∈ k) :
    x.toNat < 17 := by
  obtain ⟨ns, hns, rfl⟩ := h
  rcases List.mem_append.mp hx with hx | hx
  · have := hns x hx
    rw [UInt8.lt_iff_toNat_lt] at this
    simp at this
    omega
  · simp at hx
    simp [hx]

theorem HexKey.hexPrefix {k : List UInt8} (h : HexKey k) : HexPrefix k := ⟨[], by simpa using h⟩

theorem HexPrefix.of_append {p q : List UInt8} (h : HexPrefix (p ++ q)) : HexPrefix p := by
  obtain ⟨rest, hr⟩ := h
  exact ⟨q ++ rest, by simpa using hr⟩

theorem hexPrefix_of_nibbles {p : List UInt8} (hp : Nibbles p) {x : UInt8} (hx : x.toNat < 17) :
    HexPrefix (p ++ [x]) := by
  by_cases h16 : x = 16
  · exact ⟨[], p, hp, by simp [h16]⟩
  · refine ⟨[16], p ++ [x], hp.append ?_, by simp⟩
    intro y hy
    rw [List.mem_singleton] at hy
    rw [hy, UInt8.lt_iff_toNat_lt]
    have : x.toNat ≠ 16 := fun h => h16 (UInt8.toNat_inj.mp (by simpa using h))
    simp
    omega

@[simp] theorem mem_validFrom {p k : List UInt8} : k ∈ validFrom p ↔ HexKey (p ++ k) := Iff.rfl

theorem validFrom_append (p q : List UInt8) :
    validFrom (p ++ q) = Set.preimage (q ++ ·) (validFrom p) := by
  ext k
  simp [List.append_assoc]

theorem eq_of_mem_validFrom {p k k' : List UInt8} (hk : k ∈ validFrom p) (hk' : k' ∈ validFrom p)
    (h : k <+: k') : k = k' :=
  List.append_cancel_left (HexKey.eq_of_isPrefix hk hk' ((List.prefix_append_right_inj p).mpr h))

theorem eq_nil_of_mem_validFrom {p k : List UInt8} (hp : HexKey p) (hk : k ∈ validFrom p) :
    k = [] :=
  (eq_of_mem_validFrom (k := []) (by simpa using hp) hk List.nil_prefix).symm

theorem ne_nil_of_mem_validFrom {p k : List UInt8} (hp : Nibbles p) (hk : k ∈ validFrom p) :
    k ≠ [] := by
  rintro rfl
  exact HexKey.not_nibbles (by simpa using hk) hp

/-! ## Reads -/

section Database

-- the node database: the node stored under a hash
variable (db : Hash → Option (Node V))

/-- A read of the hex key `key` below a node finds `r`. -/
inductive Lookup : Node V → List UInt8 → Option V → Prop
  | nil (key : List UInt8) : Lookup .nil key none
  | value (v : V) (key : List UInt8) : Lookup (.value v) key (some v)
  | short {nkey : List UInt8} {c : Node V} {rest : List UInt8} {r : Option V} :
      Lookup c rest r → Lookup (.short nkey c) (nkey ++ rest) r
  | shortMiss {nkey : List UInt8} (c : Node V) {key : List UInt8} :
      ¬ nkey <+: key → Lookup (.short nkey c) key none
  | full {cs : List (Node V)} {i : UInt8} {c : Node V} {rest : List UInt8} {r : Option V} :
      cs[i.toNat]? = some c → Lookup c rest r → Lookup (.full cs) (i :: rest) r
  | hash {h : Hash} {c : Node V} {key : List UInt8} {r : Option V} :
      db h = some c → Lookup c key r → Lookup (.hash h) key r

variable {db}

@[simp] theorem lookup_nil : Lookup db (.nil : Node V) = fun _ r => r = none := by
  funext key r
  apply propext
  constructor
  · rintro ⟨⟩
    rfl
  · rintro rfl
    exact .nil key

@[simp] theorem lookup_value (v : V) : Lookup db (.value v) = fun _ r => r = some v := by
  funext key r
  apply propext
  constructor
  · rintro ⟨⟩
    rfl
  · rintro rfl
    exact .value v key

/-- A short node reads as its child moved under the short key. -/
theorem lookup_short (nkey : List UInt8) (c : Node V) :
    Lookup db (.short nkey c) = under nkey (Lookup db c) := by
  funext key r
  apply propext
  constructor
  · rintro (_ | _ | ⟨hc⟩ | ⟨_, hmiss⟩)
    · exact .inl ⟨_, rfl, hc⟩
    · exact .inr ⟨hmiss, rfl⟩
  · rintro (⟨rest, rfl, hc⟩ | ⟨hmiss, rfl⟩)
    · exact .short hc
    · exact .shortMiss c hmiss

theorem lookup_full_cons {cs : List (Node V)} {i : UInt8} {rest : List UInt8} {r : Option V} :
    Lookup db (.full cs) (i :: rest) r ↔ ∃ c, cs[i.toNat]? = some c ∧ Lookup db c rest r := by
  constructor
  · rintro (_ | _ | _ | _ | ⟨hc, hl⟩)
    exact ⟨_, hc, hl⟩
  · rintro ⟨c, hc, hl⟩
    exact .full hc hl

theorem lookup_hash {h : Hash} {c : Node V} (hc : db h = some c) :
    Lookup db (.hash h) = Lookup db c := by
  funext key r
  apply propext
  constructor
  · rintro (_ | _ | _ | _ | _ | ⟨hc', hl⟩)
    rw [hc] at hc'
    cases hc'
    exact hl
  · exact .hash hc

/-- A node a hash resolves to reads as the hash. -/
theorem lookup_resolve {n n' : Node V} (h : resolve db n = .ok n') : Lookup db n' = Lookup db n := by
  cases n with
  | hash hn =>
    cases hc : db hn with
    | none => simp [resolve, hc] at h
    | some c =>
      simp only [resolve, hc, Outcome.ok.injEq] at h
      subst h
      exact (lookup_hash hc).symm
  | _ => simp only [resolve, Outcome.ok.injEq] at h; rw [h]

/-- The test of `tryGet` at a short node fails exactly when the short key does not start the rest
of the key. -/
theorem short_miss_iff (nkey key : List UInt8) (pos : ℕ) :
    (key.length - pos < nkey.length ∨ nkey ≠ (key.drop pos).take nkey.length) ↔
      ¬ nkey <+: key.drop pos := by
  rw [List.prefix_iff_eq_take]
  constructor
  · rintro (hlen | hne) heq
    · have := congrArg List.length heq
      simp at this
      omega
    · exact hne heq
  · intro h
    exact .inr h

/-- A read that returns finds what `Lookup` says. -/
theorem lookup_of_tryGet : ∀ {fuel : ℕ} {n : Node V} {key : List UInt8} {pos : ℕ} {r : Option V},
    tryGet db fuel n key pos = some (.ok r) → Lookup db n (key.drop pos) r
  | 0, _, _, _, _, h => by simp [tryGet] at h
  | _ + 1, .nil, key, pos, r, h => by
    simp only [tryGet, Option.some.injEq, Outcome.ok.injEq] at h
    subst h
    exact .nil _
  | _ + 1, .value v, key, pos, r, h => by
    simp only [tryGet, Option.some.injEq, Outcome.ok.injEq] at h
    subst h
    exact .value v _
  | fuel + 1, .short nkey val, key, pos, r, h => by
    simp only [tryGet] at h
    split_ifs at h with hmiss
    · simp only [Option.some.injEq, Outcome.ok.injEq] at h
      subst h
      exact .shortMiss val ((short_miss_iff nkey key pos).mp hmiss)
    · obtain ⟨rest, hrest⟩ := not_not.mp (mt (short_miss_iff nkey key pos).mpr hmiss)
      have hl := lookup_of_tryGet h
      have hdrop : key.drop (pos + nkey.length) = rest := by
        rw [← List.drop_drop, ← hrest, List.drop_left]
      rw [hdrop] at hl
      rw [← hrest]
      exact .short hl
  | fuel + 1, .full children, key, pos, r, h => by
    simp only [tryGet] at h
    split at h
    · rename_i child hchild
      obtain ⟨i, hi, hc⟩ := Outcome.bind_eq_ok.mp hchild
      rw [Outcome.index_eq_ok] at hi hc
      obtain ⟨hpos, rfl⟩ := List.getElem?_eq_some_iff.mp hi
      rw [List.drop_eq_getElem_cons hpos]
      exact .full hc (lookup_of_tryGet h)
    · simp at h
    · simp at h
  | fuel + 1, .hash hn, key, pos, r, h => by
    simp only [tryGet] at h
    split at h
    · rename_i c hc
      exact .hash hc (lookup_of_tryGet h)
    · simp at h

/-- Every read that `Lookup` allows returns with enough fuel. -/
theorem tryGet_of_lookup {n : Node V} {k : List UInt8} {r : Option V} (hl : Lookup db n k r) :
    ∀ {key : List UInt8} {pos : ℕ}, key.drop pos = k → ∃ fuel, tryGet db fuel n key pos = some (.ok r) := by
  induction hl with
  | nil _ => exact fun _ => ⟨1, rfl⟩
  | value v _ => exact fun _ => ⟨1, rfl⟩
  | @short nkey c rest r _ ih =>
    intro key pos hk
    have hdrop : key.drop (pos + nkey.length) = rest := by
      rw [← List.drop_drop, hk, List.drop_left]
    obtain ⟨fuel, hf⟩ := ih hdrop
    have hp : nkey <+: key.drop pos := hk ▸ List.prefix_append nkey rest
    refine ⟨fuel + 1, ?_⟩
    simp only [tryGet]
    rw [if_neg (mt (short_miss_iff nkey key pos).mp (not_not.mpr hp))]
    exact hf
  | shortMiss c hmiss =>
    intro key pos hk
    refine ⟨1, ?_⟩
    simp only [tryGet]
    rw [if_pos ((short_miss_iff _ key pos).mpr (hk ▸ hmiss))]
  | @full cs i c rest r hc _ ih =>
    intro key pos hk
    have hpos : pos < key.length := by
      have := congrArg List.length hk
      simp at this
      omega
    rw [List.drop_eq_getElem_cons hpos, List.cons.injEq] at hk
    obtain ⟨fuel, hf⟩ := ih hk.2
    refine ⟨fuel + 1, ?_⟩
    have hidx : (Outcome.index key pos >>= fun i => Outcome.index cs i.toNat) = .ok c := by
      rw [Outcome.index_of_lt hpos, hk.1, Outcome.ok_bind, Outcome.index_eq_ok]
      exact hc
    simp only [tryGet, hidx]
    exact hf
  | @hash h c key r hc _ ih =>
    intro key' pos hk
    obtain ⟨fuel, hf⟩ := ih hk
    exact ⟨fuel + 1, by simp only [tryGet, hc]; exact hf⟩

/-- `TryGet` returns `r` with enough fuel exactly when the read of the hex key finds it. -/
theorem exists_tryGet_iff {root : Node V} {key : List UInt8} {r : Option V} :
    (∃ fuel, TryGet db fuel root key = some (.ok r)) ↔ Lookup db root (keybytesToHex key) r := by
  constructor
  · rintro ⟨fuel, h⟩
    simpa using lookup_of_tryGet h
  · intro h
    exact tryGet_of_lookup h (by simp)

/-! ## Well-formed tries -/

variable (db) in
/-- A trie well formed at the path `p` that leads to it. -/
inductive WF : List UInt8 → Node V → Prop
  | nil (p : List UInt8) : WF p .nil
  | value {p : List UInt8} (v : V) : HexKey p → WF p (.value v)
  | short {p nkey : List UInt8} {c : Node V} :
      HexPrefix (p ++ nkey) → WF (p ++ nkey) c → WF p (.short nkey c)
  | full {p : List UInt8} {cs : List (Node V)} : cs.length = 17 → Nibbles p →
      (∀ (i : ℕ) (c : Node V), cs[i]? = some c → WF (p ++ [i.toUInt8]) c) → WF p (.full cs)
  | hash {p : List UInt8} {h : Hash} {c : Node V} : db h = some c → WF p c → WF p (.hash h)
  | missing {p : List UInt8} {h : Hash} : db h = none → WF p (.hash h)

/-- Two short nodes in a row are one short node. -/
theorem WF.merge {p a b : List UInt8} {c : Node V} (h : WF db p (.short a (.short b c))) :
    WF db p (.short (a ++ b) c) := by
  rcases h with _ | _ | ⟨-, hb⟩
  rcases hb with _ | _ | ⟨hpre, hc⟩
  rw [List.append_assoc] at hpre hc
  exact .short hpre hc

theorem lookup_merge (a b : List UInt8) (c : Node V) :
    Lookup db (.short (a ++ b) c) = Lookup db (.short a (.short b c)) := by
  rw [lookup_short, lookup_short, lookup_short, under_under]

theorem WF.of_resolve {p : List UInt8} {n n' : Node V} (hw : WF db p n) (h : resolve db n = .ok n') :
    WF db p n' := by
  cases n with
  | hash hn =>
    rcases hw with _ | _ | _ | _ | ⟨hc, hw⟩ | ⟨hc⟩
    · simp only [resolve, hc, Outcome.ok.injEq] at h
      exact h ▸ hw
    · simp [resolve, hc] at h
  | _ => simp only [resolve, Outcome.ok.injEq] at h; exact h ▸ hw

end Database

end Trie

end Zvchain
