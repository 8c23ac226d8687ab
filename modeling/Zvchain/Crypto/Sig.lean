import Zvchain.Crypto.Seckey

/-!
# Signatures of the threshold scheme (`consensus/groupsig/sig.go`, `pubkey.go`, `bn_curve.go`)

A signature is a point of G1 and a public key a point of G2.  Both groups are taken as
`ZMod Order`-modules: `ScalarMult` by a big integer is the action of its scalar, `Add` is the
group law, and `HashToG1` is a fixed map from messages to G1 (`hashToG1`).  `Sign` multiplies the
hash of the message by the key; `SharePubkey` evaluates the master public key at an identifier by
Horner's rule on points; `RecoverSignature` adds the signatures times their Lagrange coefficients
at zero, taking the first as the sum so far.

`RecoverSignatureByMapI` takes `k` signatures out of a map from identifiers to signatures: when
the map holds more, `randK` keeps those at `k` positions that `RandomPerm` draws from a random
source.  A Go map is iterated in an order of the runtime's choosing, so a map is a list of its
entries in the order of one iteration, and a later iteration sees a reordering `iter` of it.  The
map's keys are the identifiers' address strings, which `SetAddrString` reads back; the model keys
the map by the identifiers themselves.
-/

open Polynomial Finset

namespace Zvchain

section Sig

variable {G1 G2 : Type} [AddCommGroup G1] [Module (ZMod Order) G1] [AddCommGroup G2]
  [Module (ZMod Order) G2]

/-- `Sign`: the hash of the message times the key. -/
def Sign (hashToG1 : List UInt8 → G1) (sec : Seckey) (msg : List UInt8) : G1 :=
  (sec.GetBigInt : ZMod Order) • hashToG1 msg

/-- `GetMasterPublicKey`: the public key of each master key. -/
def GetMasterPublicKey (base : G2) (msk : List Seckey) : List G2 :=
  msk.map (NewPubkeyFromSeckey base)

/-- `SharePubkey`: Horner's rule on the points of the master public key, from the last down. -/
def SharePubkey (mpub : List G2) (id : ID) : Outcome G2 := do
  let top ← Outcome.index mpub (mpub.length - 1)
  let x := id.GetBigInt
  pure (mpub.dropLast.reverse.foldl (fun pub c => (x : ZMod Order) • pub + c) top)

/-- One step of the loop of `RecoverSignature`: the `i`-th signature times its Lagrange
coefficient is the sum so far when `i` is zero, and is added to it otherwise. -/
def recoverSignatureStep (sigs : List G1) (xs : List ℤ) (k : ℕ) (sig : Option G1) (i : ℕ) :
    Outcome (Option G1) := do
  let delta ← lagrangeDelta xs k i id
  let si ← Outcome.index sigs i
  let newSig := (delta : ZMod Order) • si
  pure (if i = 0 then some newSig else sig.map (· + newSig))

/-- `RecoverSignature`; `none` is the `Signature{}` without a point that it returns when there
are no signatures. -/
def RecoverSignature (sigs : List G1) (ids : List ID) : Outcome (Option G1) :=
  (List.range sigs.length).foldlM
    (recoverSignatureStep sigs (ids.map ID.GetBigInt) sigs.length) none

/-- `RandomPerm(n, k)`: the first `k` entries of `0, …, n - 1` after `k` steps of a
Fisher–Yates shuffle, where step `i` swaps entry `i` with entry `r.Deri(i).Modulo(n - i) + i`;
`deri i` is the big integer of `r.Deri(i)`.  The slice is a function of the index. -/
def RandomPerm (deri : ℕ → ℕ) (n k : ℕ) : List ℕ :=
  let l := (List.range k).foldl
    (fun (l : ℕ → ℕ) i => l ∘ Equiv.swap i (deri i % (n - i) + i)) id
  (List.range k).map l

/-- The loop of `randK` over the map's entries: `i` counts the entries, `j` the drawn positions
taken so far; it stops once `k` are taken. -/
def randKLoop (indexs : List ℕ) (k : ℕ) : List (ID × G1) → ℕ → ℕ → Outcome (List (ID × G1))
  | [], _, _ => pure []
  | e :: rest, i, j => do
    let idx ← Outcome.index indexs j
    if i = idx then
      if j + 1 ≥ k then pure [e]
      else do
        let taken ← randKLoop indexs k rest (i + 1) (j + 1)
        pure (e :: taken)
    else randKLoop indexs k rest (i + 1) j

/-- `randK`: the entries at `k` positions drawn by `RandomPerm` and sorted. -/
def randK (deri : ℕ → ℕ) (m : List (ID × G1)) (k : ℕ) : Outcome (List (ID × G1)) :=
  randKLoop ((RandomPerm deri m.length k).mergeSort fun a b => decide (a ≤ b)) k m 0 0

/-- `RecoverSignatureByMapI`: at most `k` entries of the map, drawn by `randK` when it holds more,
taken in the order `iter` of their iteration; slots left over keep the zero values that `make`
gives them (the zero point for a signature). -/
def RecoverSignatureByMapI (deri : ℕ → ℕ) (iter : List (ID × G1) → List (ID × G1))
    (m : List (ID × G1)) (k : ℕ) : Outcome (Option G1) := do
  let m ← if k < m.length then randK deri m k else pure m
  let chosen := (iter m).take k
  let ids := chosen.map Prod.fst ++ List.replicate (k - chosen.length) ⟨0⟩
  let sigs := chosen.map Prod.snd ++ List.replicate (k - chosen.length) 0
  RecoverSignature sigs ids

/-! ## Public key shares -/

/-- The share of the master public key at an identifier is the public key of the share of the
master secret key, for every master key list; an empty one makes both panic alike. -/
theorem sharePubkey_getMasterPublicKey (base : G2) (msec : List Seckey) (id : ID) :
    SharePubkey (GetMasterPublicKey base msec) id =
      (do let s ← ShareSeckey msec id; pure (NewPubkeyFromSeckey base s)) := by
  rcases List.eq_nil_or_concat msec with rfl | ⟨cs, a, rfl⟩
  · rfl
  rw [shareSeckey_eq (by simp), Outcome.ok_bind, SharePubkey,
    Outcome.index_of_lt (by simp [GetMasterPublicKey]), Outcome.ok_bind]
  -- Horner's rule on the points is the value of the polynomial times the base point
  simp only [GetMasterPublicKey, List.concat_eq_append, List.map_append, List.map_singleton,
    List.dropLast_concat, List.length_append, List.length_map, List.length_singleton,
    Nat.add_sub_cancel, List.getElem_concat_length]
  have hpts : cs.map (NewPubkeyFromSeckey base) ++ [NewPubkeyFromSeckey base a] =
      ((cs ++ [a]).map fun s => (s.GetBigInt : ZMod Order)).map (· • base) := by
    simp [NewPubkeyFromSeckey]
  rw [Interp.foldl_horner_smul, hpts, Interp.evalPoints_map_smul]
  simp [NewPubkeyFromSeckey, polyOf]

/-! ## Recovering a signature -/

section Recover

variable {sigs : List G1} {xs : List ℤ} {k i : ℕ}

theorem recoverSignatureStep_eq (hk : k ≤ xs.length) (hs : k ≤ sigs.length) (hi : i < k)
    (sig : Option G1) :
    recoverSignatureStep sigs xs k sig i =
      .ok (if i = 0 then some (Interp.weight (range k) (nodeAt xs) 0 i • sigs.getD i 0)
        else sig.map (· + Interp.weight (range k) (nodeAt xs) 0 i • sigs.getD i 0)) := by
  have hnum : ∀ z : ℤ, ((id z : ℤ) : ZMod Order) = (z : ZMod Order) - 0 := fun z => by simp
  rw [recoverSignatureStep, lagrangeDelta_eq hk hi hnum, Outcome.ok_bind,
    Outcome.index_eq_getD (by omega) 0, Outcome.ok_bind, Outcome.pure_eq]
  simp

/-- `RecoverSignature` of at least one signature is the sum of the signatures times Lagrange's
weights at zero. -/
theorem recoverSignature_eq {ids : List ID} (h0 : 0 < sigs.length)
    (h : sigs.length ≤ ids.length) :
    RecoverSignature sigs ids = .ok (some (∑ i ∈ range sigs.length,
      Interp.weight (range sigs.length) (nodeAt (ids.map ID.GetBigInt)) 0 i • sigs.getD i 0)) := by
  rw [RecoverSignature, Outcome.foldlM_eq_ok fun sig i hi =>
    recoverSignatureStep_eq (by simpa using h) le_rfl (List.mem_range.mp hi) sig]
  exact congrArg Outcome.ok (Interp.foldl_range_first_add (fun i =>
    Interp.weight (range sigs.length) (nodeAt (ids.map ID.GetBigInt)) 0 i • sigs.getD i 0) h0)

@[simp] theorem sign_ofScalar (hashToG1 : List UInt8 → G1) (a : ZMod Order) (msg : List UInt8) :
    Sign hashToG1 (ofScalar a) msg = a • hashToG1 msg := by
  rw [Sign, cast_ofScalar]

/-- Threshold recovery: the signatures with the values of a polynomial of degree below their
number, at identifiers distinct modulo the order, recover the signature with its value at zero. -/
theorem recoverSignature_of_poly (hashToG1 : List UInt8 → G1) (msg : List UInt8)
    {f : (ZMod Order)[X]} {ids : List ID}
    (hdist : (ids.map fun id => (id.GetBigInt : ZMod Order)).Nodup)
    (hdeg : f.degree < ids.length) (h0 : 0 < ids.length) :
    RecoverSignature
        (ids.map fun id => Sign hashToG1 (ofScalar (f.eval (id.GetBigInt : ZMod Order))) msg) ids =
      .ok (some (Sign hashToG1 (ofScalar (f.eval 0)) msg)) := by
  rw [recoverSignature_eq (by simpa using h0) (by simp), List.length_map, sign_ofScalar,
    Interp.eval_eq_sum_weight (injOn_nodeAt hdist) (by rwa [card_range]) 0, sum_smul]
  -- each term is the signature at node `i` times its weight
  refine congrArg (fun g => Outcome.ok (some g)) (sum_congr rfl fun i hi => ?_)
  have hi : i < ids.length := mem_range.mp hi
  rw [List.getD_eq_getElem _ _ (by simpa using hi), List.getElem_map, sign_ofScalar,
    nodeAt_map_of_lt hi, smul_smul, mul_comm]

end Recover

end Sig

/-! ## The positions `randK` draws -/

section Draw

variable {js : ℕ → ℕ} {n : ℕ}

/-- Composing with swaps keeps a function injective. -/
theorem foldl_swap_injective (js : ℕ → ℕ) :
    ∀ (l : List ℕ) {f : ℕ → ℕ}, Function.Injective f →
      Function.Injective (l.foldl (fun g i => g ∘ Equiv.swap i (js i)) f)
  | [], _, hf => hf
  | _ :: l, _, hf => foldl_swap_injective js l (hf.comp (Equiv.injective _))

/-- Composing with swaps of positions below `n` keeps the positions below `n` below `n`. -/
theorem foldl_swap_lt :
    ∀ (l : List ℕ) {f : ℕ → ℕ}, (∀ i ∈ l, i < n ∧ js i < n) → (∀ x < n, f x < n) →
      ∀ x < n, l.foldl (fun g i => g ∘ Equiv.swap i (js i)) f x < n
  | [], _, _, hf => hf
  | i :: l, f, hl, hf => by
    refine foldl_swap_lt l (fun i' hi' => hl i' (List.mem_cons_of_mem i hi')) fun x hx => ?_
    obtain ⟨hi, hj⟩ := hl i List.mem_cons_self
    simp only [Function.comp_apply, Equiv.swap_apply_def]
    split_ifs <;> exact hf _ (by assumption)

theorem length_randomPerm (deri : ℕ → ℕ) (n k : ℕ) : (RandomPerm deri n k).length = k := by
  simp [RandomPerm]

/-- The drawn positions are distinct. -/
theorem randomPerm_nodup (deri : ℕ → ℕ) (n k : ℕ) : (RandomPerm deri n k).Nodup :=
  List.nodup_range.map (foldl_swap_injective _ _ Function.injective_id)

/-- With at most `n` draws, every drawn position is below `n`: step `i` swaps with a position in
`[i, n)`. -/
theorem randomPerm_lt (deri : ℕ → ℕ) {n k : ℕ} (hk : k ≤ n) : ∀ x ∈ RandomPerm deri n k, x < n := by
  simp only [RandomPerm, List.mem_map, List.mem_range]
  rintro _ ⟨x, hx, rfl⟩
  refine foldl_swap_lt _ (fun i hi => ?_) (fun x hx => hx) x (by omega)
  have hi : i < k := List.mem_range.mp hi
  have hmod : deri i % (n - i) < n - i := Nat.mod_lt _ (by omega)
  exact ⟨by omega, by omega⟩

/-- Sorted, the drawn positions increase strictly. -/
theorem pairwise_lt_randomPerm_mergeSort (deri : ℕ → ℕ) (n k : ℕ) :
    ((RandomPerm deri n k).mergeSort fun a b => decide (a ≤ b)).Pairwise (· < ·) := by
  have hle := List.pairwise_mergeSort (fun a b c (hab : decide (a ≤ b) = true)
    (hbc : decide (b ≤ c) = true) => by simp at hab hbc ⊢; omega)
    (fun a b => by simpa using le_total a b) (RandomPerm deri n k)
  have hne : ((RandomPerm deri n k).mergeSort fun a b => decide (a ≤ b)).Nodup :=
    ((List.mergeSort_perm _ _).nodup_iff).mpr (randomPerm_nodup deri n k)
  exact (hle.and hne).imp fun ⟨h1, h2⟩ => lt_of_le_of_ne (by simpa using h1) h2

end Draw

section Pick

variable {G1 : Type} {indexs : List ℕ} {k : ℕ}

/-- The loop of `randK` with the positions from `j` on between `i` and the end of the entries
left takes the entries at those positions: a sublist of `k - j` of them. -/
theorem randKLoop_sublist (hsort : indexs.Pairwise (· < ·)) (hk : k ≤ indexs.length) :
    ∀ (rest : List (ID × G1)) (i j : ℕ), j < k →
      (∀ t, j ≤ t → t < k → i ≤ indexs.getD t 0 ∧ indexs.getD t 0 < i + rest.length) →
      ∃ l, randKLoop indexs k rest i j = .ok l ∧ l.Sublist rest ∧ l.length = k - j
  | [], i, j, hj, hb => by
    have := hb j le_rfl hj
    simp at this
    omega
  | e :: rest, i, j, hj, hb => by
    -- the positions after `j` lie above the one at `j`
    have hlt : ∀ t, j < t → t < k → indexs.getD j 0 < indexs.getD t 0 := by
      intro t hjt htk
      rw [List.getD_eq_getElem _ _ (by omega), List.getD_eq_getElem _ _ (by omega)]
      exact List.pairwise_iff_getElem.mp hsort j t _ _ hjt
    have hj' := hb j le_rfl hj
    rw [randKLoop, Outcome.index_eq_getD (by omega) 0, Outcome.ok_bind]
    by_cases hi : i = indexs.getD j 0
    · rw [if_pos hi]
      by_cases hlast : j + 1 ≥ k
      · rw [if_pos hlast]
        exact ⟨[e], rfl, by simp, by simp; omega⟩
      · -- entry `i` is taken and the loop goes on with the next position
        rw [if_neg hlast]
        obtain ⟨l, hl, hsub, hlen⟩ := randKLoop_sublist hsort hk rest (i + 1) (j + 1) (by omega)
          fun t ht htk => by
            have h1 := hb t (by omega) htk
            have h2 := hlt t (by omega) htk
            simp only [List.length_cons] at h1
            omega
        rw [hl, Outcome.ok_bind]
        exact ⟨e :: l, rfl, hsub.cons_cons e, by simp only [List.length_cons, hlen]; omega⟩
    · -- entry `i` is not at the position sought: skipped
      rw [if_neg hi]
      obtain ⟨l, hl, hsub, hlen⟩ := randKLoop_sublist hsort hk rest (i + 1) j hj
        fun t ht htk => by
          have h1 := hb t ht htk
          have h2 : indexs.getD j 0 ≤ indexs.getD t 0 := by
            rcases Nat.eq_or_lt_of_le ht with rfl | hjt
            · exact le_rfl
            · exact (hlt t hjt htk).le
          simp only [List.length_cons] at h1
          omega
      exact ⟨l, hl, hsub.cons e, hlen⟩

/-- `randK` of at most as many positions as entries takes `k` of the entries, in their order. -/
theorem randK_sublist (deri : ℕ → ℕ) {m : List (ID × G1)} (h0 : 0 < k) (hk : k ≤ m.length) :
    ∃ l, randK deri m k = .ok l ∧ l.Sublist m ∧ l.length = k := by
  have hlen : ((RandomPerm deri m.length k).mergeSort fun a b => decide (a ≤ b)).length = k := by
    rw [List.length_mergeSort, length_randomPerm]
  obtain ⟨l, hl, hsub, hlen'⟩ := randKLoop_sublist (pairwise_lt_randomPerm_mergeSort deri _ k)
    hlen.ge m 0 0 h0 fun t _ htk => by
      have hmem : ((RandomPerm deri m.length k).mergeSort fun a b => decide (a ≤ b)).getD t 0 ∈
          RandomPerm deri m.length k := by
        rw [List.getD_eq_getElem _ _ (by omega)]
        exact (List.mergeSort_perm _ _).subset (List.getElem_mem _)
      exact ⟨Nat.zero_le _, by simpa using randomPerm_lt deri hk _ hmem⟩
  exact ⟨l, hl, hsub, by omega⟩

end Pick


/-! ## Recovering from a map of signatures -/

section ByMap

variable {G1 G2 : Type} [AddCommGroup G1] [Module (ZMod Order) G1] [AddCommGroup G2]
  [Module (ZMod Order) G2]

/-- The recovery `RecoverSignatureByMapI` ends with, from `k` of the map's entries in the order
`iter` gives them: their signatures are the values of the polynomial. -/
theorem recoverSignature_iter_of_sublist (hashToG1 : List UInt8 → G1) (msg : List UInt8)
    {iter : List (ID × G1) → List (ID × G1)} (hiter : ∀ l, (iter l).Perm l)
    {f : (ZMod Order)[X]} {m m' : List (ID × G1)} {k : ℕ} (h0 : 0 < k) (hdeg : f.degree < k)
    (hdist : (m.map fun e => (e.1.GetBigInt : ZMod Order)).Nodup)
    (hsig : ∀ e ∈ m, e.2 = Sign hashToG1 (ofScalar (f.eval (e.1.GetBigInt : ZMod Order))) msg)
    (hsub : m'.Sublist m) (hlen : m'.length = k) :
    RecoverSignature
        (((iter m').take k).map Prod.snd ++ List.replicate (k - ((iter m').take k).length) 0)
        (((iter m').take k).map Prod.fst ++ List.replicate (k - ((iter m').take k).length) ⟨0⟩) =
      .ok (some (Sign hashToG1 (ofScalar (f.eval 0)) msg)) := by
  have hperm := hiter m'
  have hlen' : (iter m').length = k := by rw [hperm.length_eq, hlen]
  -- the `k` slots are filled, so nothing is padded
  have hchosen : (iter m').take k = iter m' := List.take_of_length_le hlen'.le
  have hsigs : (iter m').map Prod.snd = ((iter m').map Prod.fst).map fun id =>
      Sign hashToG1 (ofScalar (f.eval (id.GetBigInt : ZMod Order))) msg := by
    rw [List.map_map]
    exact List.map_congr_left fun e he => hsig e (hsub.subset (hperm.subset he))
  have hdist' : (((iter m').map Prod.fst).map fun id => (id.GetBigInt : ZMod Order)).Nodup := by
    rw [List.map_map]
    exact (hperm.map _).nodup_iff.mpr ((hsub.map _).nodup hdist)
  simp only [hchosen, hlen', Nat.sub_self, List.replicate_zero, List.append_nil]
  rw [hsigs]
  exact recoverSignature_of_poly hashToG1 msg hdist' (by rwa [List.length_map, hlen'])
    (by rwa [List.length_map, hlen'])

/-- Whatever `randK` draws and in whatever order the map is iterated, `RecoverSignatureByMapI`
recovers, from at least `k` signatures with the values of a polynomial of degree below `k` at
identifiers distinct modulo the order, the signature with its value at zero. -/
theorem recoverSignatureByMapI_of_poly (hashToG1 : List UInt8 → G1) (msg : List UInt8)
    (deri : ℕ → ℕ) {iter : List (ID × G1) → List (ID × G1)} (hiter : ∀ l, (iter l).Perm l)
    {f : (ZMod Order)[X]} {m : List (ID × G1)} {k : ℕ} (h0 : 0 < k) (hk : k ≤ m.length)
    (hdeg : f.degree < k) (hdist : (m.map fun e => (e.1.GetBigInt : ZMod Order)).Nodup)
    (hsig : ∀ e ∈ m, e.2 = Sign hashToG1 (ofScalar (f.eval (e.1.GetBigInt : ZMod Order))) msg) :
    RecoverSignatureByMapI deri iter m k = .ok (some (Sign hashToG1 (ofScalar (f.eval 0)) msg)) := by
  rw [RecoverSignatureByMapI]
  split_ifs with hlt
  · -- more entries than needed: `randK` keeps `k` of them, in the map's order
    obtain ⟨m', hm', hsub, hlen⟩ := randK_sublist deri h0 hk
    rw [hm', Outcome.ok_bind]
    exact recoverSignature_iter_of_sublist hashToG1 msg hiter h0 hdeg hdist hsig hsub hlen
  · rw [Outcome.pure_eq, Outcome.ok_bind]
    exact recoverSignature_iter_of_sublist hashToG1 msg hiter h0 hdeg hdist hsig
      (List.Sublist.refl m) (by omega)

/-- The signatures with the shares of the master keys at the identifiers. -/
theorem mapM_sign_shareSeckey (hashToG1 : List UInt8 → G1) (msg : List UInt8)
    {msec : List Seckey} (h : msec ≠ []) (ids : List ID) :
    ids.mapM (fun id => do let s ← ShareSeckey msec id; pure (Sign hashToG1 s msg)) =
      .ok (ids.map fun id =>
        Sign hashToG1 (ofScalar ((polyOf msec).eval (id.GetBigInt : ZMod Order))) msg) :=
  Outcome.mapM_eq_ok fun id _ => by rw [shareSeckey_eq h, Outcome.ok_bind, Outcome.pure_eq]

theorem sign_eval_zero_polyOf (hashToG1 : List UInt8 → G1) (msg : List UInt8) (c : Seckey)
    (cs : List Seckey) :
    Sign hashToG1 (ofScalar ((polyOf (c :: cs)).eval 0)) msg = Sign hashToG1 c msg := by
  rw [eval_zero_polyOf, sign_ofScalar, Sign]

/-- Threshold signatures with the master keys `c :: cs`: the signatures with the shares at enough
identifiers distinct modulo the order recover the signature with `c`; the share of the master
public key is the public key of the share; and `RecoverSignatureByMapI` recovers the signature with
`c` from a map of enough such signatures, whatever positions `randK` draws and in whatever order
the map is iterated. -/
theorem threshold_signatures_consistent (hashToG1 : List UInt8 → G1) (base : G2) (c : Seckey)
    (cs : List Seckey) (msg : List UInt8) :
    (∀ ids : List ID, (c :: cs).length ≤ ids.length →
      (ids.map fun id => (id.GetBigInt : ZMod Order)).Nodup →
      (ids.mapM (fun id => do let s ← ShareSeckey (c :: cs) id; pure (Sign hashToG1 s msg)) >>=
          fun sigs => RecoverSignature sigs ids) = .ok (some (Sign hashToG1 c msg))) ∧
    (∀ id : ID, SharePubkey (GetMasterPublicKey base (c :: cs)) id =
      (do let s ← ShareSeckey (c :: cs) id; pure (NewPubkeyFromSeckey base s))) ∧
    (∀ (deri : ℕ → ℕ) (iter : List (ID × G1) → List (ID × G1)) (m : List (ID × G1)),
      (∀ l, (iter l).Perm l) → (c :: cs).length ≤ m.length →
      (m.map fun e => (e.1.GetBigInt : ZMod Order)).Nodup →
      (∀ e ∈ m, (do let s ← ShareSeckey (c :: cs) e.1; pure (Sign hashToG1 s msg)) = .ok e.2) →
      RecoverSignatureByMapI deri iter m (c :: cs).length = .ok (some (Sign hashToG1 c msg))) := by
  have hdeg := degree_polyOf_lt (c :: cs)
  refine ⟨fun ids hm hdist => ?_, sharePubkey_getMasterPublicKey base (c :: cs),
    fun deri iter m hiter hm hdist hsig => ?_⟩
  · rw [mapM_sign_shareSeckey hashToG1 msg (List.cons_ne_nil c cs), Outcome.ok_bind,
      recoverSignature_of_poly hashToG1 msg hdist (hdeg.trans_le (by exact_mod_cast hm))
        (by simp at hm; omega), sign_eval_zero_polyOf]
  · -- each entry of the map is the signature with the share at its identifier
    have hsig' : ∀ e ∈ m, e.2 =
        Sign hashToG1 (ofScalar ((polyOf (c :: cs)).eval (e.1.GetBigInt : ZMod Order))) msg := by
      intro e he
      have := hsig e he
      rw [shareSeckey_eq (List.cons_ne_nil c cs), Outcome.ok_bind, Outcome.pure_eq] at this
      exact (Outcome.ok.inj this).symm
    rw [recoverSignatureByMapI_of_poly hashToG1 msg deri hiter (by simp) hm hdeg hdist hsig',
      sign_eval_zero_polyOf]

/-- The master keys `5, 3` shared at the identifiers `1, 2`, with signatures on the scalars
themselves and a hash that is one: the shares are `8` and `11`.  The map of signatures holds a
third share, `14` at `3`, so `RecoverSignatureByMapI` draws two of its three entries with `randK`,
and it is iterated in reverse. -/
theorem threshold_signatures_at_one_two :
    ([⟨5⟩, ⟨3⟩] : List Seckey).length ≤ ([⟨1⟩, ⟨2⟩] : List ID).length ∧
      (([⟨1⟩, ⟨2⟩] : List ID).map fun id => (id.GetBigInt : ZMod Order)).Nodup ∧
      (∀ e ∈ ([(⟨1⟩, 8), (⟨2⟩, 11), (⟨3⟩, 14)] : List (ID × ZMod Order)),
        (do let s ← ShareSeckey [⟨5⟩, ⟨3⟩] e.1; pure (Sign (fun _ => (1 : ZMod Order)) s [])) =
          .ok e.2) ∧
      (([⟨1⟩, ⟨2⟩] : List ID).mapM (fun id => do
          let s ← ShareSeckey [⟨5⟩, ⟨3⟩] id; pure (Sign (fun _ => (1 : ZMod Order)) s [])) >>=
          fun sigs => RecoverSignature sigs [⟨1⟩, ⟨2⟩]) =
        .ok (some (Sign (fun _ => (1 : ZMod Order)) ⟨5⟩ [])) ∧
      RecoverSignatureByMapI (fun _ => 0) List.reverse [(⟨1⟩, 8), (⟨2⟩, 11), (⟨3⟩, 14)] 2 =
        .ok (some (Sign (fun _ => (1 : ZMod Order)) ⟨5⟩ [])) := by
  have hm : ∀ e ∈ ([(⟨1⟩, 8), (⟨2⟩, 11), (⟨3⟩, 14)] : List (ID × ZMod Order)),
      (do let s ← ShareSeckey [⟨5⟩, ⟨3⟩] e.1; pure (Sign (fun _ => (1 : ZMod Order)) s [])) =
        .ok e.2 := by
    decide
  exact ⟨by decide, by decide, hm,
    (threshold_signatures_consistent (fun _ => (1 : ZMod Order)) (1 : ZMod Order) ⟨5⟩ [⟨3⟩]
      []).1 [⟨1⟩, ⟨2⟩] (by decide) (by decide),
    (threshold_signatures_consistent (fun _ => (1 : ZMod Order)) (1 : ZMod Order) ⟨5⟩ [⟨3⟩]
      []).2.2 (fun _ => 0) List.reverse _ List.reverse_perm (by decide) (by decide) hm⟩

end ByMap

end Zvchain
