import Zvchain.Spec.TrieRead
import Zvchain.Storage.AccountDB

/-!
# Updates write the trie as a map

An update of the hex key `key` to `w` below the node `n`, at the path `p`, that returns `(d, n')`
`Writes` when `n'` is well formed and reads as `n` with `key` written, and as `n` itself when
`d` reports no change.  `insert` writes `some v` (`insert_writes`) and `delete` writes `none`
(`delete_writes`) on every well-formed trie: the case of each node is one lemma, the short node
moving the write under its key (`Writes.short`), the full node into one child
(`Writes.full`), the split of a short node into a full one (`Writes.branch`) and the fold of a
full node left with one child (`collapse_spec`).

By key bytes, `TryUpdate` overwrites one entry of the trie's contents (`contents_tryUpdate`), and
a run of `updateTrie` that keeps no error writes every dirty entry in turn, so that the last
write to a key wins (`updateTrie_contents`).  Since Go ranges over the dirty map in any order
and the map holds one value a key, every such run leaves the storage that
`AccountObject.updateRoot` describes (`updateTrie_refines_updateRoot`).
-/

namespace Zvchain

namespace Trie

open Entries

variable {V : Type}

section Database

-- the node database: the node stored under a hash
variable (db : Hash → Option (Node V))

/-- What an update of `key` to `w` below `n` at the path `p` that returned `(d, n')` must give: a
well-formed node that reads as `n` with `key` written, and as `n` when `d` says nothing changed. -/
structure Writes (p : List UInt8) (n : Node V) (key : List UInt8) (w : Option V) (d : Bool)
    (n' : Node V) : Prop where
  wf : WF db p n'
  lookup : Set.EqOn (Lookup db n') (overwrite (Lookup db n) key w) (validFrom p)
  clean : d = false → Set.EqOn (Lookup db n') (Lookup db n) (validFrom p)

variable {db} {p key : List UInt8} {n n' : Node V} {w : Option V} {d : Bool}

/-! ## One lemma for each kind of node -/

/-- An update that reports no change may return the node it was given. -/
theorem Writes.keep (hw : Writes db p n key w false n') (hn : WF db p n) :
    Writes db p n key w false n :=
  ⟨hn, (hw.clean rfl).symm.trans hw.lookup, fun _ => Set.eqOn_refl _ _⟩

/-- The returned node may be replaced by a well-formed one that reads the same. -/
theorem Writes.congr {n'' : Node V} (hw : Writes db p n key w d n')
    (h : Set.EqOn (Lookup db n'') (Lookup db n') (validFrom p)) (hwf : WF db p n'') :
    Writes db p n key w d n'' :=
  ⟨hwf, h.trans hw.lookup, fun hd => h.trans (hw.clean hd)⟩

/-- The node updated may be replaced by one that reads the same. -/
theorem Writes.of_eqOn {n₀ : Node V} (hw : Writes db p n key w d n')
    (h : Set.EqOn (Lookup db n₀) (Lookup db n) (validFrom p)) : Writes db p n₀ key w d n' :=
  ⟨hw.wf, hw.lookup.trans (overwrite_congr h.symm key w), fun hd => (hw.clean hd).trans h.symm⟩

theorem Writes.short {nkey ks : List UInt8} {c c' : Node V} (hpre : HexPrefix (p ++ nkey))
    (hw : Writes db (p ++ nkey) c ks w d c') :
    Writes db p (.short nkey c) (nkey ++ ks) w d (.short nkey c') := by
  refine ⟨.short hpre hw.wf, ?_, fun hd => ?_⟩
  · have hl := hw.lookup
    rw [validFrom_append] at hl
    rw [lookup_short, lookup_short, ← under_overwrite]
    exact under_congr hl
  · have hl := hw.clean hd
    rw [validFrom_append] at hl
    rw [lookup_short, lookup_short]
    exact under_congr hl

theorem Writes.hash {h : Hash} {c : Node V} (hc : db h = some c) (hw : Writes db p c key w d n') :
    Writes db p (.hash h) key w d n' :=
  hw.of_eqOn (by rw [lookup_hash hc]; exact Set.eqOn_refl _ _)

theorem WF.child {cs : List (Node V)} {i : UInt8} {c : Node V} (hn : WF db p (.full cs))
    (hc : cs[i.toNat]? = some c) : WF db (p ++ [i]) c := by
  rcases hn with _ | _ | _ | ⟨-, -, hch⟩
  simpa using hch i.toNat c hc

theorem WF.of_hash {h : Hash} {c : Node V} (hn : WF db p (.hash h)) (hc : db h = some c) :
    WF db p c := by
  rcases hn with _ | _ | _ | _ | ⟨hc', hw⟩ | ⟨hc'⟩
  · rw [hc] at hc'
    cases hc'
    exact hw
  · rw [hc] at hc'
    cases hc'

theorem WF.nibbles {cs : List (Node V)} (hn : WF db p (.full cs)) : Nibbles p := by
  rcases hn with _ | _ | _ | ⟨-, hnib, -⟩
  exact hnib

theorem WF.full_set {cs : List (Node V)} {i : UInt8} {c' : Node V} (hn : WF db p (.full cs))
    (hc' : WF db (p ++ [i]) c') : WF db p (.full (cs.set i.toNat c')) := by
  rcases hn with _ | _ | _ | ⟨hlen, hnib, hch⟩
  refine .full (by simpa using hlen) hnib fun j c hj => ?_
  by_cases hij : i.toNat = j
  · subst hij
    rw [List.getElem?_set, if_pos rfl] at hj
    split_ifs at hj
    cases hj
    simpa using hc'
  · rw [List.getElem?_set_ne hij] at hj
    exact hch j c hj

theorem lookup_full_set {cs : List (Node V)} {i j : UInt8} {c' : Node V} {rest : List UInt8}
    {r : Option V} (hi : i.toNat < cs.length) :
    Lookup db (.full (cs.set i.toNat c')) (j :: rest) r ↔
      if j = i then Lookup db c' rest r else Lookup db (.full cs) (j :: rest) r := by
  rw [lookup_full_cons, lookup_full_cons]
  split_ifs with hji
  · subst hji
    simp [List.getElem?_set_self hi]
  · rw [List.getElem?_set_ne (fun h => hji (UInt8.toNat_inj.mp h).symm)]

/-- A full node with the child at `i` replaced reads below `i` as the new child, and elsewhere as
before. -/
theorem eqOn_full_set {cs : List (Node V)} {i : UInt8} {c c' : Node V}
    {e E : List UInt8 → Option V → Prop} (hn : WF db p (.full cs)) (hc : cs[i.toNat]? = some c)
    (h : Set.EqOn (Lookup db c') e (validFrom (p ++ [i])))
    (hat : ∀ rest r, E (i :: rest) r ↔ e rest r)
    (hoff : ∀ j rest r, j ≠ i → (E (j :: rest) r ↔ Lookup db (.full cs) (j :: rest) r)) :
    Set.EqOn (Lookup db (.full (cs.set i.toNat c'))) E (validFrom p) := by
  have hi : i.toNat < cs.length := (List.getElem?_eq_some_iff.mp hc).1
  apply eqOn_of_iff
  intro k hk r
  obtain ⟨j, rest, rfl⟩ := List.exists_cons_of_ne_nil (ne_nil_of_mem_validFrom hn.nibbles hk)
  rw [lookup_full_set hi]
  split_ifs with hji
  · subst hji
    rw [hat]
    exact iff_of_eqOn h (by simpa using hk) r
  · exact (hoff j rest r hji).symm

theorem Writes.full {cs : List (Node V)} {i : UInt8} {ks : List UInt8} {c c' : Node V}
    (hn : WF db p (.full cs)) (hc : cs[i.toNat]? = some c)
    (hw : Writes db (p ++ [i]) c ks w d c') :
    Writes db p (.full cs) (i :: ks) w d (.full (cs.set i.toNat c')) := by
  refine ⟨hn.full_set hw.wf, eqOn_full_set hn hc hw.lookup ?_ ?_,
    fun hd => eqOn_full_set hn hc (hw.clean hd) ?_ ?_⟩
  · intro rest r
    simp [overwrite, lookup_full_cons, hc]
  · intro j rest r hji
    exact overwrite_of_ne (by simp [hji])
  · intro rest r
    simp [lookup_full_cons, hc]
  · intro j rest r _
    rfl

/-- A full node with one child that is not `nil` reads as a short node of one nibble to it. -/
theorem eqOn_full_single {cs : List (Node V)} {j : ℕ} {c : Node V} (hlen : cs.length = 17)
    (hnib : Nibbles p) (hj : cs[j]? = some c) (hnil : ∀ i c', cs[i]? = some c' → i ≠ j → c' = .nil) :
    Set.EqOn (Lookup db (.full cs)) (Lookup db (.short [j.toUInt8] c)) (validFrom p) := by
  have hj17 : j < 17 := hlen ▸ (List.getElem?_eq_some_iff.mp hj).1
  apply eqOn_of_iff
  intro k hk r
  obtain ⟨x, rest, rfl⟩ := List.exists_cons_of_ne_nil (ne_nil_of_mem_validFrom hnib hk)
  have hx : x.toNat < 17 := HexKey.toNat_lt hk (by simp)
  rw [lookup_full_cons, lookup_short]
  by_cases hxj : x.toNat = j
  · have hxj' : x = j.toUInt8 := by subst hxj; simp
    subst hxj'
    simp [hxj, hj]
  · have hne : x ≠ j.toUInt8 := by
      rintro rfl
      simp at hxj
      omega
    obtain ⟨c', hc'⟩ : ∃ c', cs[x.toNat]? = some c' :=
      ⟨cs[x.toNat], List.getElem?_eq_getElem (by omega)⟩
    obtain rfl := hnil _ _ hc' hxj
    rw [under_cons_of_ne hne]
    simp [hc']

/-! ## Insertion -/

theorem insertValue_writes [DecidableEq V] {v : V} (hp : HexKey p)
    (h : insertValue n (.value v) = .ok (d, n')) : Writes db p n [] (some v) d n' := by
  have hn' : n' = .value v ∧ (d = false → n = .value v) := by
    cases n with
    | value v₀ =>
      simp only [insertValue, Outcome.ok.injEq, Prod.mk.injEq] at h
      obtain ⟨rfl, rfl⟩ := h
      refine ⟨rfl, fun hd => ?_⟩
      simp only [decide_eq_false_iff_not, not_not] at hd
      rw [hd]
    | _ =>
      simp only [insertValue, Outcome.ok.injEq, Prod.mk.injEq] at h
      obtain ⟨rfl, rfl⟩ := h
      exact ⟨rfl, fun hd => absurd hd (by decide)⟩
  obtain ⟨rfl, hclean⟩ := hn'
  refine ⟨.value v (by simpa using hp), ?_, fun hd => ?_⟩
  · apply eqOn_of_iff
    intro k hk r
    rw [eq_nil_of_mem_validFrom hp hk]
    simp
  · obtain rfl := hclean hd
    exact Set.eqOn_refl _ _

/-- `insert` into `nil` puts the node under the key. -/
theorem insert_nil [DecidableEq V] {fuel : ℕ} {k : List UInt8} {c : Node V} {r : Bool × Node V}
    (h : insert db fuel .nil k c = some (.ok r)) :
    r = (true, if k = [] then c else .short k c) := by
  cases fuel with
  | zero => simp [insert] at h
  | succ fuel =>
    cases k with
    | nil =>
      simp only [insert, insertValue, Option.some.injEq, Outcome.ok.injEq] at h
      simp [h]
    | cons x xs =>
      simp only [insert, Option.some.injEq, Outcome.ok.injEq] at h
      simp [h]

theorem lookup_ite_short (k : List UInt8) (c : Node V) :
    Lookup db (if k = [] then c else .short k c) = under k (Lookup db c) := by
  split_ifs with hk
  · subst hk
    simp
  · exact lookup_short k c

theorem WF.ite_short {k : List UInt8} {c : Node V} (hpre : HexPrefix (p ++ k))
    (hc : WF db (p ++ k) c) : WF db p (if k = [] then c else .short k c) := by
  split_ifs with hk
  · subst hk
    simpa using hc
  · exact .short hpre hc

/-- A value written into `nil` under its whole key. -/
theorem Writes.fresh {v : V} (hk : HexKey (p ++ key)) :
    Writes db p .nil key (some v) true (if key = [] then .value v else .short key (.value v)) := by
  refine ⟨.ite_short hk.hexPrefix (.value v hk), ?_, fun hd => absurd hd (by decide)⟩
  apply eqOn_of_iff
  intro k hk' r
  rw [lookup_ite_short, lookup_value]
  by_cases hpre : key <+: k
  · obtain rfl := eq_of_mem_validFrom hk hk' hpre
    simp
  · have hne : k ≠ key := fun h => hpre (h ▸ List.prefix_refl k)
    rw [under_of_not_isPrefix hpre, overwrite_of_ne hne, lookup_nil]

/-- Where the key leaves a short key it does not run past, both go on. -/
theorem prefixLen_lt_of_hexKey {nkey : List UInt8} (hm : prefixLen key nkey ≠ nkey.length)
    (hpre : HexPrefix (p ++ nkey)) (hk : HexKey (p ++ key)) :
    prefixLen key nkey < key.length ∧ prefixLen key nkey < nkey.length := by
  have hle := prefixLen_le_left key nkey
  have hle' := prefixLen_le_right key nkey
  refine ⟨lt_of_le_of_ne hle fun heq => ?_, by omega⟩
  have hkp : key <+: nkey := by
    have ht := take_prefixLen key nkey
    rw [heq, List.take_length] at ht
    exact ht ▸ List.take_prefix _ nkey
  obtain ⟨rest, hrest⟩ := hpre
  have hall := HexKey.eq_of_isPrefix hk hrest
    (((List.prefix_append_right_inj p).mpr hkp).trans (by simp))
  have hlen := congrArg List.length hall
  simp at hlen
  omega

/-- A short node split where the key leaves it: a full node with the rest of the short node
under its nibble and the value under the key's nibble. -/
theorem Writes.split {a b : UInt8} {s t : List UInt8} {nval c₁ c₂ : Node V} {v : V}
    (hab : a ≠ b) (hnib : Nibbles p) (ha : a.toNat < 17) (hb : b.toNat < 17)
    (h₁ : Lookup db c₁ = under s (Lookup db nval)) (hw₁ : WF db (p ++ [a]) c₁)
    (hw₂ : Writes db (p ++ [b]) .nil t (some v) true c₂) :
    Writes db p (.short (a :: s) nval) (b :: t) (some v) true
      (.full ((emptyChildren.set a.toNat c₁).set b.toNat c₂)) := by
  have hab' : a.toNat ≠ b.toNat := fun h => hab (UInt8.toNat_inj.mp h)
  have hempty : WF db p (.full (emptyChildren : List (Node V))) := by
    refine .full (by simp) hnib fun i c hc => ?_
    simp only [emptyChildren, List.getElem?_replicate] at hc
    split_ifs at hc
    cases hc
    exact .nil _
  have hset : (emptyChildren.set a.toNat c₁)[a.toNat]? = some c₁ :=
    List.getElem?_set_self (by simpa using ha)
  have hnil : (emptyChildren.set a.toNat c₁)[b.toNat]? = some (.nil : Node V) := by
    rw [List.getElem?_set_ne hab', emptyChildren, List.getElem?_replicate, if_pos hb]
  have hw := Writes.full (hempty.full_set hw₁) hnil hw₂
  refine hw.of_eqOn ?_
  have hsingle : Set.EqOn (Lookup db (.full (emptyChildren.set a.toNat c₁)))
      (Lookup db (.short [a.toNat.toUInt8] c₁)) (validFrom p) :=
    eqOn_full_single (by simp) hnib hset fun i c hc hi => by
    rw [List.getElem?_set_ne (Ne.symm hi)] at hc
    simp only [emptyChildren, List.getElem?_replicate] at hc
    split_ifs at hc
    exact (Option.some.inj hc).symm
  have hshort : Lookup db (.short (a :: s) nval) = Lookup db (.short [a.toNat.toUInt8] c₁) := by
    rw [lookup_short, lookup_short, h₁, under_under]
    simp
  rw [hshort]
  exact hsingle.symm

/-- The split of a short node, as `insert` computes it from the two inserts into `nil`. -/
theorem Writes.branch [DecidableEq V] {fuel : ℕ} {nkey : List UInt8} {nval : Node V} {v : V}
    {a b : UInt8} {r₁ r₂ : Bool × Node V}
    (hn : WF db p (.short nkey nval)) (hk : HexKey (p ++ key))
    (hm : prefixLen key nkey ≠ nkey.length)
    (ha : nkey[prefixLen key nkey]? = some a) (hb : key[prefixLen key nkey]? = some b)
    (hr₁ : insert db fuel .nil (nkey.drop (prefixLen key nkey + 1)) nval = some (.ok r₁))
    (hr₂ : insert db fuel .nil (key.drop (prefixLen key nkey + 1)) (.value v) = some (.ok r₂)) :
    Writes db p (.short nkey nval) key (some v) true
      (if prefixLen key nkey = 0 then .full ((emptyChildren.set a.toNat r₁.2).set b.toNat r₂.2)
       else .short (key.take (prefixLen key nkey))
         (.full ((emptyChildren.set a.toNat r₁.2).set b.toNat r₂.2))) := by
  rcases hn with _ | _ | ⟨hpre, hval⟩
  obtain ⟨hmk, hmn⟩ := prefixLen_lt_of_hexKey hm hpre hk
  have hab : a ≠ b := by
    obtain ⟨-, rfl⟩ := List.getElem?_eq_some_iff.mp ha
    obtain ⟨-, rfl⟩ := List.getElem?_eq_some_iff.mp hb
    exact (getElem_prefixLen_ne key nkey hmk hmn).symm
  set m := prefixLen key nkey with hmdef
  have hnkey : key.take m ++ a :: nkey.drop (m + 1) = nkey := by
    obtain ⟨-, rfl⟩ := List.getElem?_eq_some_iff.mp ha
    rw [← List.drop_eq_getElem_cons hmn, show key.take m = nkey.take m from take_prefixLen key nkey,
      List.take_append_drop]
  have hkey : key.take m ++ b :: key.drop (m + 1) = key := by
    obtain ⟨-, rfl⟩ := List.getElem?_eq_some_iff.mp hb
    rw [← List.drop_eq_getElem_cons hmk, List.take_append_drop]
  rw [insert_nil hr₁, insert_nil hr₂]
  dsimp only
  -- the split happens at the path `p ++ key.take m`
  have hk' : HexKey (p ++ key.take m ++ b :: key.drop (m + 1)) := by
    rwa [List.append_assoc, hkey]
  have hpre' : HexPrefix (p ++ key.take m ++ a :: nkey.drop (m + 1)) := by
    rwa [List.append_assoc, hnkey]
  have hval' : WF db (p ++ key.take m ++ [a] ++ nkey.drop (m + 1)) nval := by
    rwa [List.append_assoc, List.append_assoc, List.singleton_append, hnkey]
  have ha17 : a.toNat < 17 := by
    obtain ⟨rest, hr⟩ := hpre'
    exact HexKey.toNat_lt hr (by simp)
  have hsplit := Writes.split (p := p ++ key.take m) (s := nkey.drop (m + 1))
    (t := key.drop (m + 1)) (v := v) hab (hk'.nibbles_of_ne_nil (List.cons_ne_nil _ _)) ha17
    (HexKey.toNat_lt hk' (by simp)) (lookup_ite_short _ _)
    (.ite_short (by rw [List.append_assoc, List.singleton_append]; exact hpre') hval')
    (Writes.fresh (by rw [List.append_assoc, List.singleton_append]; exact hk'))
  by_cases hm0 : m = 0
  · rw [if_pos hm0]
    have hnil : key.take m = [] := by simp [hm0]
    rw [hnil, List.nil_append] at hkey hnkey
    rw [hnil, List.append_nil, hkey, hnkey] at hsplit
    exact hsplit
  · rw [if_neg hm0]
    have hw := Writes.short hk'.hexPrefix.of_append hsplit
    rw [hkey] at hw
    refine hw.of_eqOn ?_
    rw [← lookup_merge, hnkey]
    exact Set.eqOn_refl _ _

/-- `insert` of a value writes it. -/
theorem insert_writes [DecidableEq V] {v : V} :
    ∀ {fuel : ℕ} {p : List UInt8} {n : Node V} {key : List UInt8} {d : Bool} {n' : Node V},
      WF db p n → HexKey (p ++ key) → insert db fuel n key (.value v) = some (.ok (d, n')) →
      Writes db p n key (some v) d n'
  | 0, _, _, _, _, _, _, _, h => by simp [insert] at h
  | fuel + 1, p, n, [], d, n', _, hk, h => by
    simp only [insert, Option.some.injEq] at h
    exact insertValue_writes (by simpa using hk) h
  | fuel + 1, p, .short nkey nval, k :: ks, d, n', hn, hk, h => by
    simp only [insert] at h
    by_cases hm : prefixLen (k :: ks) nkey = nkey.length
    · -- the whole short key matches: the write goes below it
      rw [if_pos hm] at h
      obtain ⟨r, hr, hfin⟩ := Outcome.andThen_eq_ok.mp h
      obtain ⟨ks', hks'⟩ : nkey <+: k :: ks := by
        rw [← prefixLen_eq_length_iff, prefixLen_comm, hm]
      rw [hm, ← hks', List.drop_left] at hr
      rcases hn with _ | _ | ⟨hpre, hval⟩
      have hw := insert_writes hval (by rwa [List.append_assoc, hks']) hr
      rw [← hks']
      cases hd : r.1
      · simp only [hd, Bool.false_eq_true, if_false, Option.some.injEq, Outcome.ok.injEq,
          Prod.mk.injEq] at hfin
        obtain ⟨rfl, rfl⟩ := hfin
        rw [hd] at hw
        exact (Writes.short hpre hw).keep (.short hpre hval)
      · simp only [hd, if_true, Option.some.injEq, Outcome.ok.injEq, Prod.mk.injEq] at hfin
        obtain ⟨rfl, rfl⟩ := hfin
        rw [hd] at hw
        exact Writes.short hpre hw
    · -- the keys part inside the short key: a full node takes its place
      rw [if_neg hm] at h
      obtain ⟨r₁, hr₁, h⟩ := Outcome.andThen_eq_ok.mp h
      obtain ⟨branch, hbranch, h⟩ := Outcome.andThen_eq_ok.mp h
      obtain ⟨b, hb, h⟩ := Outcome.andThen_eq_ok.mp h
      obtain ⟨r₂, hr₂, h⟩ := Outcome.andThen_eq_ok.mp h
      obtain ⟨branch', hbranch', hfin⟩ := Outcome.andThen_eq_ok.mp h
      simp only [Option.some.injEq, Outcome.ok.injEq, Prod.mk.injEq] at hfin
      obtain ⟨rfl, rfl⟩ := hfin
      obtain ⟨a, ha, hset⟩ := Outcome.bind_eq_ok.mp (Option.some.inj hbranch)
      rw [Outcome.index_eq_ok] at ha
      rw [Option.some.injEq, Outcome.index_eq_ok] at hb
      have hw := Writes.branch hn hk hm ha hb hr₁ hr₂
      have ha17 : a.toNat < 17 := by
        rcases hn with _ | _ | ⟨⟨rest, hr⟩, -⟩
        exact HexKey.toNat_lt hr (by simp [List.mem_of_getElem? ha])
      have hb17 : b.toNat < 17 := HexKey.toNat_lt hk (by simp [List.mem_of_getElem? hb])
      rw [setChild_of_lt (by simpa using ha17), Outcome.ok.injEq] at hset
      subst hset
      rw [Option.some.injEq, setChild_of_lt (by simpa using hb17), Outcome.ok.injEq] at hbranch'
      subst hbranch'
      exact hw
  | fuel + 1, p, .full children, k :: ks, d, n', hn, hk, h => by
    simp only [insert] at h
    obtain ⟨c, hc, h⟩ := Outcome.andThen_eq_ok.mp h
    obtain ⟨r, hr, hfin⟩ := Outcome.andThen_eq_ok.mp h
    rw [Option.some.injEq, Outcome.index_eq_ok] at hc
    have hw := insert_writes (hn.child hc) (by simpa using hk) hr
    cases hd : r.1
    · simp only [hd, Bool.false_eq_true, if_false, Option.some.injEq, Outcome.ok.injEq,
        Prod.mk.injEq] at hfin
      obtain ⟨rfl, rfl⟩ := hfin
      rw [hd] at hw
      exact (Writes.full hn hc hw).keep hn
    · have hi : k.toNat < children.length := (List.getElem?_eq_some_iff.mp hc).1
      simp only [hd, if_true, setChild_of_lt hi, Outcome.ok_bind, pure, Option.some.injEq,
        Outcome.ok.injEq, Prod.mk.injEq] at hfin
      obtain ⟨rfl, rfl⟩ := hfin
      rw [hd] at hw
      exact Writes.full hn hc hw
  | fuel + 1, p, .nil, k :: ks, d, n', _, hk, h => by
    simp only [insert, Option.some.injEq, Outcome.ok.injEq, Prod.mk.injEq] at h
    obtain ⟨rfl, rfl⟩ := h
    simpa using (Writes.fresh hk : Writes db p .nil (k :: ks) (some v) true _)
  | fuel + 1, p, .hash hh, k :: ks, d, n', hn, hk, h => by
    simp only [insert] at h
    split at h
    · simp at h
    · rename_i rn hrn
      obtain ⟨r, hr, hfin⟩ := Outcome.andThen_eq_ok.mp h
      have hrn_wf := hn.of_hash hrn
      have hw := insert_writes hrn_wf hk hr
      cases hd : r.1
      · simp only [hd, Bool.false_eq_true, if_false, Option.some.injEq, Outcome.ok.injEq,
          Prod.mk.injEq] at hfin
        obtain ⟨rfl, rfl⟩ := hfin
        rw [hd] at hw
        exact (hw.keep hrn_wf).hash hrn
      · simp only [hd, if_true, Option.some.injEq, Outcome.ok.injEq, Prod.mk.injEq] at hfin
        obtain ⟨rfl, rfl⟩ := hfin
        rw [hd] at hw
        exact hw.hash hrn
  | fuel + 1, p, .value _, k :: ks, d, n', _, _, h => by
    simp [insert] at h

/-! ## Deletion -/

/-- A key the node holds nothing under: the node is its own update. -/
theorem Writes.absent (hn : WF db p n) (ha : ∀ r, Lookup db n key r ↔ r = none) :
    Writes db p n key none false n := by
  refine ⟨hn, eqOn_of_iff fun k _ r => ?_, fun _ => Set.eqOn_refl _ _⟩
  by_cases hk : k = key
  · subst hk
    rw [overwrite_self, ha]
  · rw [overwrite_of_ne hk]

/-- A node that holds nothing below `p` but under `key` is cleared to `nil`. -/
theorem Writes.clear (hone : ∀ k ∈ validFrom p, k ≠ key → ∀ r, Lookup db n k r ↔ r = none) :
    Writes db p n key none true .nil := by
  refine ⟨.nil p, eqOn_of_iff fun k hk r => ?_, fun hd => absurd hd (by decide)⟩
  by_cases hkk : k = key
  · subst hkk
    simp
  · rw [overwrite_of_ne hkk, hone k hk hkk]
    simp

/-- What the loop of `remainingPos` knows of the children it has passed: `-2` once two are not
`nil`, `-1` while all are `nil`, and else the index of the only one that is not. -/
def Remaining (xs : List (Node V × ℕ)) (pos : ℤ) : Prop :=
  pos = -2 ∨ (pos = -1 ∧ ∀ x ∈ xs, x.1 = .nil) ∨
    (0 ≤ pos ∧ (∃ x ∈ xs, x.2 = pos.toNat) ∧ ∀ x ∈ xs, x.2 ≠ pos.toNat → x.1 = .nil)

theorem Remaining.step {xs : List (Node V × ℕ)} {pos : ℤ} (h : Remaining xs pos)
    (c : Node V × ℕ) :
    Remaining (xs ++ [c]) (if pos = -2 ∨ c.1.isNil then pos else if pos = -1 then c.2 else -2) := by
  by_cases hskip : pos = -2 ∨ c.1.isNil
  · rw [if_pos hskip]
    rcases h with h2 | ⟨h1, hall⟩ | ⟨h0, ⟨x, hx, hxp⟩, hall⟩
    · exact .inl h2
    · have hc : c.1 = .nil := Node.isNil_iff.mp (hskip.resolve_left (by omega))
      refine .inr (.inl ⟨h1, fun y hy => ?_⟩)
      rcases List.mem_append.mp hy with hy | hy
      · exact hall y hy
      · rw [List.mem_singleton.mp hy, hc]
    · have hc : c.1 = .nil := Node.isNil_iff.mp (hskip.resolve_left (by omega))
      refine .inr (.inr ⟨h0, ⟨x, List.mem_append_left _ hx, hxp⟩, fun y hy hne => ?_⟩)
      rcases List.mem_append.mp hy with hy | hy
      · exact hall y hy hne
      · rw [List.mem_singleton.mp hy, hc]
  · rw [if_neg hskip]
    have hne2 : pos ≠ -2 := fun h => hskip (.inl h)
    by_cases h1 : pos = -1
    · rw [if_pos h1]
      rcases h with h2 | ⟨-, hall⟩ | ⟨h0, -⟩
      · exact absurd h2 hne2
      · refine .inr (.inr ⟨by omega, ⟨c, by simp, by simp⟩, fun y hy hne => ?_⟩)
        rcases List.mem_append.mp hy with hy | hy
        · exact hall y hy
        · rw [List.mem_singleton.mp hy] at hne
          simp at hne
      · omega
    · rw [if_neg h1]
      exact .inl rfl

theorem Remaining.foldl {xs : List (Node V × ℕ)} {pos : ℤ} (h : Remaining xs pos)
    (ys : List (Node V × ℕ)) :
    Remaining (xs ++ ys) (ys.foldl (fun pos c =>
      if pos = -2 ∨ c.1.isNil then pos else if pos = -1 then c.2 else -2) pos) := by
  induction ys generalizing xs pos with
  | nil => simpa using h
  | cons y ys ih =>
    rw [List.foldl_cons]
    simpa using ih (h.step y)

/-- A non-negative `remainingPos` is the index of the only child that is not `nil`. -/
theorem remainingPos_spec {cs : List (Node V)} (h : 0 ≤ remainingPos cs) :
    ∃ c, cs[(remainingPos cs).toNat]? = some c ∧
      ∀ i c', cs[i]? = some c' → i ≠ (remainingPos cs).toNat → c' = .nil := by
  have hr := (show Remaining ([] : List (Node V × ℕ)) (-1) from .inr (.inl ⟨rfl, by simp⟩)).foldl
    cs.zipIdx
  rw [List.nil_append] at hr
  change Remaining cs.zipIdx (remainingPos cs) at hr
  rcases hr with h2 | ⟨h1, -⟩ | ⟨-, ⟨x, hx, hxp⟩, hall⟩
  · omega
  · omega
  · rw [List.mem_zipIdx_iff_getElem?, hxp] at hx
    exact ⟨x.1, hx, fun i c' hc' hi => hall (c', i) (List.mem_zipIdx_iff_getElem?.mpr hc') hi⟩

/-- The fold at the end of `delete`: the node reads as the full node it replaces. -/
theorem collapse_spec {cs : List (Node V)} (hn : WF db p (.full cs))
    (h : collapse db cs = .ok (d, n')) :
    d = true ∧ WF db p n' ∧ Set.EqOn (Lookup db n') (Lookup db (.full cs)) (validFrom p) := by
  have hlen : cs.length = 17 := by
    rcases hn with _ | _ | _ | ⟨hlen, -, -⟩
    exact hlen
  simp only [collapse] at h
  by_cases hpos : 0 ≤ remainingPos cs
  · rw [if_pos hpos] at h
    obtain ⟨c, hc, hnil⟩ := remainingPos_spec hpos
    set j := (remainingPos cs).toNat
    have hj17 : j < 17 := hlen ▸ (List.getElem?_eq_some_iff.mp hc).1
    have hsingle : Set.EqOn (Lookup db (.full cs)) (Lookup db (.short [j.toUInt8] c)) (validFrom p) :=
      eqOn_full_single hlen hn.nibbles hc hnil
    have hpre : HexPrefix (p ++ [j.toUInt8]) := hexPrefix_of_nibbles hn.nibbles (by simp; omega)
    have hcw : WF db (p ++ [j.toUInt8]) c := hn.child (by simpa [Nat.mod_eq_of_lt (by omega : j < 256)])
    have hidx : Outcome.index cs j = .ok c := Outcome.index_eq_ok.mpr hc
    -- a short node of one nibble to the child, merged with the child when it resolves to a
    -- short node
    have hone : (d = true ∧ n' = .short [j.toUInt8] c) ∨ ∃ ckey cval,
        resolve db c = .ok (.short ckey cval) ∧ d = true ∧ n' = .short (j.toUInt8 :: ckey) cval := by
      by_cases h16 : j ≠ 16
      · rw [if_pos h16, hidx, Outcome.ok_bind] at h
        cases hres : resolve db c with
        | ok cnode =>
          rw [hres, Outcome.ok_bind] at h
          cases cnode with
          | short ckey cval =>
            simp only [pure, Outcome.ok.injEq, Prod.mk.injEq] at h
            exact .inr ⟨ckey, cval, rfl, h.1.symm, h.2.symm⟩
          | _ =>
            simp only [Outcome.ok_bind, pure, Outcome.ok.injEq, Prod.mk.injEq] at h
            exact .inl ⟨h.1.symm, h.2.symm⟩
        | error m => simp [hres] at h
        | panic m => simp [hres] at h
      · rw [if_neg h16, hidx] at h
        simp only [Outcome.ok_bind, pure, Outcome.ok.injEq, Prod.mk.injEq] at h
        exact .inl ⟨h.1.symm, h.2.symm⟩
    rcases hone with ⟨rfl, rfl⟩ | ⟨ckey, cval, hres, rfl, rfl⟩
    · exact ⟨rfl, .short hpre hcw, hsingle.symm⟩
    · refine ⟨rfl, (WF.short hpre (hcw.of_resolve hres)).merge, ?_⟩
      rw [← List.singleton_append, lookup_merge, lookup_short, lookup_resolve hres, ← lookup_short]
      exact hsingle.symm
  · simp only [if_neg hpos, pure, Outcome.ok.injEq, Prod.mk.injEq] at h
    obtain ⟨rfl, rfl⟩ := h
    exact ⟨rfl, hn, Set.eqOn_refl _ _⟩

/-- `delete` writes `none`. -/
theorem delete_writes :
    ∀ {fuel : ℕ} {p : List UInt8} {n : Node V} {key : List UInt8} {d : Bool} {n' : Node V},
      WF db p n → HexKey (p ++ key) → delete db fuel n key = some (.ok (d, n')) →
      Writes db p n key none d n'
  | 0, _, _, _, _, _, _, _, h => by simp [delete] at h
  | fuel + 1, p, .short nkey nval, key, d, n', hn, hk, h => by
    simp only [delete] at h
    by_cases hlt : prefixLen key nkey < nkey.length
    · -- the key leaves the short key: nothing to delete
      rw [if_pos hlt] at h
      simp only [Option.some.injEq, Outcome.ok.injEq, Prod.mk.injEq] at h
      obtain ⟨rfl, rfl⟩ := h
      have hnp : ¬ nkey <+: key := by
        rw [← prefixLen_eq_length_iff, prefixLen_comm]
        omega
      exact Writes.absent hn fun r => by rw [lookup_short, under_of_not_isPrefix hnp]
    · rw [if_neg hlt] at h
      have hm : prefixLen key nkey = nkey.length :=
        le_antisymm (prefixLen_le_right _ _) (not_lt.mp hlt)
      obtain ⟨ks, rfl⟩ : nkey <+: key := by
        rw [← prefixLen_eq_length_iff, prefixLen_comm, hm]
      by_cases hlen : prefixLen (nkey ++ ks) nkey = (nkey ++ ks).length
      · -- the short key is the whole key: the node goes
        rw [if_pos hlen] at h
        simp only [Option.some.injEq, Outcome.ok.injEq, Prod.mk.injEq] at h
        obtain ⟨rfl, rfl⟩ := h
        refine Writes.clear fun k' hk' hne r => ?_
        rw [lookup_short, under_of_not_isPrefix fun hp => hne (eq_of_mem_validFrom hk hk' ?_).symm]
        have hks : ks = [] := by
          rw [hm, List.length_append] at hlen
          exact List.eq_nil_of_length_eq_zero (by omega)
        simpa [hks] using hp
      · -- the rest of the key is deleted below the short key
        rw [if_neg hlen, List.drop_left] at h
        obtain ⟨r, hr, hfin⟩ := Outcome.andThen_eq_ok.mp h
        rcases hn with _ | _ | ⟨hpre, hval⟩
        have hw := delete_writes hval (by rwa [List.append_assoc]) hr
        cases hd : r.1
        · simp only [hd, Bool.not_false, if_true, Option.some.injEq, Outcome.ok.injEq,
            Prod.mk.injEq] at hfin
          obtain ⟨rfl, rfl⟩ := hfin
          rw [hd] at hw
          exact (Writes.short hpre hw).keep (.short hpre hval)
        · simp only [hd, Bool.not_true, Bool.false_eq_true, if_false] at hfin
          rw [hd] at hw
          have hs := Writes.short hpre hw
          split at hfin
          · rename_i ckey cval hc
            simp only [Option.some.injEq, Outcome.ok.injEq, Prod.mk.injEq] at hfin
            obtain ⟨rfl, rfl⟩ := hfin
            rw [hc] at hs
            exact hs.congr (by rw [lookup_merge]; exact Set.eqOn_refl _ _) hs.wf.merge
          · simp only [Option.some.injEq, Outcome.ok.injEq, Prod.mk.injEq] at hfin
            obtain ⟨rfl, rfl⟩ := hfin
            exact hs
  | fuel + 1, p, .full children, key, d, n', hn, hk, h => by
    obtain ⟨k, ks, rfl⟩ := List.exists_cons_of_ne_nil (ne_nil_of_mem_validFrom hn.nibbles hk)
    simp only [delete] at h
    obtain ⟨k', hk', h⟩ := Outcome.andThen_eq_ok.mp h
    rw [Option.some.injEq, Outcome.index_eq_ok, List.getElem?_cons_zero, Option.some.injEq] at hk'
    subst hk'
    obtain ⟨c, hc, h⟩ := Outcome.andThen_eq_ok.mp h
    rw [Option.some.injEq, Outcome.index_eq_ok] at hc
    obtain ⟨r, hr, hfin⟩ := Outcome.andThen_eq_ok.mp h
    rw [List.drop_one, List.tail_cons] at hr
    have hw := delete_writes (hn.child hc) (by simpa using hk) hr
    cases hd : r.1
    · simp only [hd, Bool.not_false, if_true, Option.some.injEq, Outcome.ok.injEq,
        Prod.mk.injEq] at hfin
      obtain ⟨rfl, rfl⟩ := hfin
      rw [hd] at hw
      exact (Writes.full hn hc hw).keep hn
    · simp only [hd, Bool.not_true, Bool.false_eq_true, if_false] at hfin
      have hi : k.toNat < children.length := (List.getElem?_eq_some_iff.mp hc).1
      obtain ⟨cs, hcs, hcol⟩ := Outcome.andThen_eq_ok.mp hfin
      rw [Option.some.injEq, setChild_of_lt hi, Outcome.ok.injEq] at hcs
      subst hcs
      rw [hd] at hw
      have hfull := Writes.full hn hc hw
      obtain ⟨rfl, hwf', heq⟩ := collapse_spec hfull.wf (Option.some.inj hcol)
      exact hfull.congr heq hwf'
  | fuel + 1, p, .value _, key, d, n', hn, hk, h => by
    simp only [delete, Option.some.injEq, Outcome.ok.injEq, Prod.mk.injEq] at h
    obtain ⟨rfl, rfl⟩ := h
    have hp : HexKey p := by
      rcases hn with _ | ⟨_, hp⟩
      exact hp
    refine Writes.clear fun k hk' hne => ?_
    exact absurd ((eq_nil_of_mem_validFrom hp hk').trans (eq_nil_of_mem_validFrom hp hk).symm) hne
  | fuel + 1, p, .nil, key, d, n', hn, _, h => by
    simp only [delete, Option.some.injEq, Outcome.ok.injEq, Prod.mk.injEq] at h
    obtain ⟨rfl, rfl⟩ := h
    exact Writes.absent hn fun r => by simp
  | fuel + 1, p, .hash hh, key, d, n', hn, hk, h => by
    simp only [delete] at h
    split at h
    · simp at h
    · rename_i rn hrn
      obtain ⟨r, hr, hfin⟩ := Outcome.andThen_eq_ok.mp h
      have hrn_wf := hn.of_hash hrn
      have hw := delete_writes hrn_wf hk hr
      cases hd : r.1
      · simp only [hd, Bool.false_eq_true, if_false, Option.some.injEq, Outcome.ok.injEq,
          Prod.mk.injEq] at hfin
        obtain ⟨rfl, rfl⟩ := hfin
        rw [hd] at hw
        exact (hw.keep hrn_wf).hash hrn
      · simp only [hd, if_true, Option.some.injEq, Outcome.ok.injEq, Prod.mk.injEq] at hfin
        obtain ⟨rfl, rfl⟩ := hfin
        rw [hd] at hw
        exact hw.hash hrn

end Database

/-! ## Updates by key bytes -/

/-- The entry a write of `value` leaves: the value, and nothing for an empty value, which
deletes. -/
def stored (value : List UInt8) : Option (List UInt8) :=
  if value.length ≠ 0 then some value else none

/-- The contents of the trie below `root`, by key bytes. -/
def Contents (db : Hash → Option (Node V)) (root : Node V) (key : List UInt8) (r : Option V) :
    Prop :=
  Lookup db root (keybytesToHex key) r

variable {db : Hash → Option (Node (List UInt8))} {fuel : ℕ} {root root' : Node (List UInt8)}

theorem tryUpdate_writes {key value : List UInt8} (hwf : WF db [] root)
    (h : TryUpdate db fuel root key value = some (.ok root')) :
    ∃ d, Writes db [] root (keybytesToHex key) (stored value) d root' := by
  have hk : HexKey ([] ++ keybytesToHex key) := by simpa using hexKey_keybytesToHex key
  unfold TryUpdate at h
  by_cases hv : value.length ≠ 0
  · rw [if_pos hv] at h
    obtain ⟨r, hr, hfin⟩ := Outcome.andThen_eq_ok.mp h
    rw [Option.some.injEq, Outcome.ok.injEq] at hfin
    subst hfin
    rw [stored, if_pos hv]
    exact ⟨r.1, insert_writes hwf hk hr⟩
  · rw [if_neg hv] at h
    obtain ⟨r, hr, hfin⟩ := Outcome.andThen_eq_ok.mp h
    rw [Option.some.injEq, Outcome.ok.injEq] at hfin
    subst hfin
    rw [stored, if_neg hv]
    exact ⟨r.1, delete_writes hwf hk hr⟩

/-- `TryUpdate` overwrites the entry of its key in the trie's contents. -/
theorem contents_tryUpdate {key value : List UInt8} (hwf : WF db [] root)
    (h : TryUpdate db fuel root key value = some (.ok root')) :
    WF db [] root' ∧ Contents db root' = overwrite (Contents db root) key (stored value) := by
  obtain ⟨d, hw⟩ := tryUpdate_writes hwf h
  refine ⟨hw.wf, ?_⟩
  funext b r
  apply propext
  have hb : keybytesToHex b ∈ validFrom [] := by simpa using hexKey_keybytesToHex b
  rw [Contents, iff_of_eqOn hw.lookup hb r]
  simp only [overwrite, Contents, ne_eq, keybytesToHex_injective.eq_iff]

/-- Once `updateTrie` keeps an error, it keeps one to the end. -/
theorem updateTrie_keeps_error {m : String} :
    ∀ {ws : List (List UInt8 × List UInt8)} {root : Node (List UInt8)}
      {res : Node (List UInt8) × Option String},
      updateTrie db fuel root (some m) ws = some (.ok res) → res.2.isSome
  | [], root, res, h => by
    simp only [updateTrie, Option.some.injEq, Outcome.ok.injEq] at h
    simp [← h]
  | (key, value) :: ws, root, res, h => by
    simp only [updateTrie, Option.some_or] at h
    split at h
    · exact updateTrie_keeps_error h
    · exact updateTrie_keeps_error h
    · simp at h
    · simp at h

/-- A run of `updateTrie` that keeps no error writes each dirty entry in turn. -/
theorem updateTrie_contents :
    ∀ {ws : List (List UInt8 × List UInt8)} {root root' : Node (List UInt8)},
      WF db [] root → updateTrie db fuel root none ws = some (.ok (root', none)) →
      WF db [] root' ∧
        Contents db root' = writeAll (Contents db root) (ws.map fun w => (w.1, stored w.2))
  | [], root, root', hwf, h => by
    simp only [updateTrie, Option.some.injEq, Outcome.ok.injEq, Prod.mk.injEq] at h
    obtain ⟨rfl, -⟩ := h
    exact ⟨hwf, rfl⟩
  | (key, value) :: ws, root, root', hwf, h => by
    -- a nil value goes to `TryDelete`, which is `TryUpdate` of the empty value
    have hu : (if value = [] then TryDelete db fuel root key else TryUpdate db fuel root key value) =
        TryUpdate db fuel root key value := by
      split_ifs with hv
      · rw [hv, tryDelete_eq_tryUpdate]
      · rfl
    simp only [updateTrie, hu] at h
    split at h
    · rename_i root'' hroot''
      obtain ⟨hwf'', hc⟩ := contents_tryUpdate hwf hroot''
      obtain ⟨hwf', hc'⟩ := updateTrie_contents hwf'' h
      refine ⟨hwf', ?_⟩
      rw [hc', hc, List.map_cons, writeAll_cons]
    · simpa using updateTrie_keeps_error h
    · simp at h
    · simp at h

/-- Last write wins: after a run of `updateTrie` that keeps no error, a read of a key returns the
value last written to it, nothing when that value was empty, and what it returned before when
no write was to it. -/
theorem updateTrie_last_write_wins {ws : List (List UInt8 × List UInt8)} (hwf : WF db [] root)
    (h : updateTrie db fuel root none ws = some (.ok (root', none))) (key : List UInt8)
    (r : Option (List UInt8)) :
    (∃ F, TryGet db F root' key = some (.ok r)) ↔
      match lastWrite (ws.map fun w => (w.1, stored w.2)) key with
      | some w => r = w
      | none => ∃ F, TryGet db F root key = some (.ok r) := by
  rw [exists_tryGet_iff]
  change Contents db root' key r ↔ _
  rw [(updateTrie_contents hwf h).2, writeAll_iff]
  cases lastWrite (ws.map fun w => (w.1, stored w.2)) key with
  | some w => rfl
  | none => exact exists_tryGet_iff.symm

/-- A key written and then deleted reads as nothing, though another key was written between. -/
theorem deleted_key_reads_nothing :
    ∃ F, TryGet (fun _ => none) F (.short [0, 2, 16] (.value ([6] : List UInt8))) [1] =
      some (.ok none) :=
  (updateTrie_last_write_wins (.nil [])
    (show updateTrie (fun _ => none) 10 .nil none [([1], [5]), ([2], [6]), ([1], [])] = _ from rfl)
    [1] none).mpr rfl

/-! ## The storage of an account -/

/-- The trie below `root` holds the storage `f`: a read of each key returns the value `f` gives
it, and nothing where that value is empty. -/
def Holds (db : Hash → Option (Node (List UInt8))) (root : Node (List UInt8))
    (f : List UInt8 → List UInt8) : Prop :=
  ∀ key r, (∃ fuel, TryGet db fuel root key = some (.ok r)) ↔ r = stored (f key)

theorem holds_iff {f : List UInt8 → List UInt8} :
    Holds db root f ↔ Contents db root = fun key r => r = stored (f key) := by
  constructor
  · intro h
    funext key r
    exact propext (exists_tryGet_iff.symm.trans (h key r))
  · intro h key r
    rw [exists_tryGet_iff]
    exact Iff.of_eq (congrFun (congrFun h key) r)

/-- The empty trie holds the empty storage. -/
theorem holds_nil (db : Hash → Option (Node (List UInt8))) : Holds db .nil (fun _ => []) := by
  intro key r
  rw [exists_tryGet_iff]
  simp [stored]

/-- The writes of a run over a dirty map are to distinct keys. -/
theorem nodup_keys_of_perm {ao : AccountObject} {ws : List (List UInt8 × List UInt8)}
    (hws : ws.Perm (ao.dirtyStorage.entries.map fun e => (e.1, e.2))) :
    ((ws.map fun w => (w.1, stored w.2)).map Prod.fst).Nodup := by
  have hkeys : (ao.dirtyStorage.entries.map fun e => (e.1, e.2)).map Prod.fst =
      ao.dirtyStorage.entries.keys := by
    simp [List.keys]
  rw [List.map_map]
  change (ws.map Prod.fst).Nodup
  rw [(hws.map Prod.fst).nodup_iff, hkeys]
  exact ao.dirtyStorage.nodupKeys

/-- `updateTrie` refines `AccountObject.updateRoot`: in whatever order Go ranges over the dirty
map, a run that keeps no error leaves a well-formed trie that holds the storage `updateRoot`
gives the account. -/
theorem updateTrie_refines_updateRoot {ao : AccountObject} {ws : List (List UInt8 × List UInt8)}
    (hws : ws.Perm (ao.dirtyStorage.entries.map fun e => (e.1, e.2))) (hwf : WF db [] root)
    (hold : Holds db root ao.data.storage)
    (h : updateTrie db fuel root none ws = some (.ok (root', none))) :
    WF db [] root' ∧ Holds db root' ao.updateRoot.data.storage := by
  obtain ⟨hwf', hc⟩ := updateTrie_contents hwf h
  refine ⟨hwf', holds_iff.mpr ?_⟩
  rw [hc, holds_iff.mp hold]
  funext key r
  apply propext
  rw [writeAll_iff]
  simp only [AccountObject.updateRoot]
  cases hl : ao.dirtyStorage.lookup key with
  | some v =>
    -- the dirty value of the key is the one write to it
    have hmem : (key, v) ∈ ws :=
      hws.mem_iff.mpr (List.mem_map.mpr ⟨⟨key, v⟩, AList.mem_lookup_iff.mp hl, rfl⟩)
    rw [lastWrite_of_mem (nodup_keys_of_perm hws) (List.mem_map.mpr ⟨(key, v), hmem, rfl⟩)]
    simp
  | none =>
    rw [lastWrite_eq_none]
    · simp
    · intro w hw hwk
      obtain ⟨⟨k, v⟩, hkv, rfl⟩ := List.mem_map.mp hw
      obtain ⟨e, he, hek⟩ := List.mem_map.mp (hws.mem_iff.mp hkv)
      simp only [Prod.mk.injEq] at hek hwk
      have hle : ao.dirtyStorage.lookup e.1 = some e.2 := AList.mem_lookup_iff.mpr he
      rw [hek.1, hwk, hl] at hle
      cases hle

/-- Two dirty entries of a new account, flushed in the order opposite to the map's. -/
theorem updateRoot_of_two_writes :
    ∃ root', updateTrie (fun _ => none) 10 .nil none [([1], [5]), ([2], [6])] =
        some (.ok (root', none)) ∧ WF (fun _ => none) [] root' ∧
      Holds (fun _ => none) root'
        ({ newAccountObject Account.blank false with
            dirtyStorage := ((∅ : Storage).insert [1] [5]).insert [2] [6] }).updateRoot.data.storage :=
  ⟨_, rfl, updateTrie_refines_updateRoot (List.Perm.swap ([2], [6]) ([1], [5]) []) (.nil [])
    (holds_nil _)
    (show updateTrie (fun _ => none) 10 .nil none [([1], [5]), ([2], [6])] = _ from rfl)⟩

end Trie

end Zvchain
