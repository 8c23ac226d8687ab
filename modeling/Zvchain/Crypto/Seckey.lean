import Zvchain.Crypto.Bncurve
import Zvchain.Lib.Lagrange
import Zvchain.Lib.Outcome

/-!
# Secret keys and the threshold arithmetic (`consensus/groupsig/seckey.go`, `id.go`)

A secret key and an identifier hold a big integer each.  The keys that the code makes are
reduced by `curveOrder`; an identifier is any integer.  `ShareSeckey` evaluates the polynomial
whose coefficients are the master keys at an identifier; `RecoverSeckey` interpolates the value
at zero from shares and their identifiers, with Lagrange coefficients computed by a modular
inverse; `CheckSharePiecesValid` interpolates through the first `k` shares at the identifiers of
the later ones and at zero.  The index reads of the loops may panic, so the functions return an
`Outcome`.

A public key is a point of G2, taken as a `ZMod Order`-module; `NewPubkeyFromSeckey` multiplies
the base point by the key.

Over the field `ZMod Order` the reductions disappear: a key is the canonical representative of
a scalar (`ofScalar`), and each function is the evaluation or interpolation it computes.  A nil
slice and an empty one are not told apart.
-/

open Polynomial Finset

namespace Zvchain

/-- `groupsig.Seckey`: the big integer of its `BnInt`. -/
structure Seckey where
  value : ℤ
  deriving DecidableEq, Repr

/-- `groupsig.ID`: the big integer of its `BnInt`. -/
structure ID where
  value : ℤ
  deriving DecidableEq, Repr

def Seckey.GetBigInt (sec : Seckey) : ℤ := sec.value

def ID.GetBigInt (id : ID) : ℤ := id.value

/-- `NewSeckeyFromBigInt`: the integer reduced by the order. -/
def NewSeckeyFromBigInt (b : ℤ) : Seckey := ⟨b % curveOrder⟩

/-- `big.Int.ModInverse(g, n)` for a positive modulus: the inverse of `g` in `[0, n)`, or `none`
(the nil it returns, leaving its receiver unchanged) when `g` and `n` are not coprime.  A negative
`g` is reduced first.  Go takes the Bézout coefficient of its extended GCD into `[0, n)`; that is
the inverse in `[0, n)` that `gcdA % n` is too. -/
def ModInverse (g n : ℤ) : Option ℤ :=
  let g := if g < 0 then g % n else g
  if Int.gcd g n = 1 then some (Int.gcdA g n % n) else none

/-- `AggregateSeckeys`: the sum of the keys, reduced; nil when there are none. -/
def AggregateSeckeys : List Seckey → Option Seckey
  | [] => none
  | sec :: secs => some ⟨secs.foldl (fun acc s => acc + s.GetBigInt) sec.GetBigInt % curveOrder⟩

/-- `ShareSeckey`: Horner's rule from the last master key down, reduced after each step. -/
def ShareSeckey (msec : List Seckey) (id : ID) : Outcome Seckey := do
  let top ← Outcome.index msec (msec.length - 1)
  let x := id.GetBigInt
  let secret := msec.dropLast.reverse.foldl
    (fun secret c => (secret * x + c.GetBigInt) % curveOrder) top.GetBigInt
  pure (NewSeckeyFromBigInt secret)

/-- One step of the inner loop of the Lagrange coefficient of node `i`, at index `j`: the
numerator is multiplied by `xs[j]` in `RecoverSeckey` and by `xs[j] - xs[m]` in
`CheckSharePiecesValid` (`numFactor`), the denominator by `xs[j] - xs[i]`. -/
def lagrangeStep (xs : List ℤ) (i : ℕ) (numFactor : ℤ → ℤ) (acc : ℤ × ℤ) (j : ℕ) :
    Outcome (ℤ × ℤ) :=
  if j ≠ i then do
    let xj ← Outcome.index xs j
    let xi ← Outcome.index xs i
    pure (acc.1 * numFactor xj % curveOrder, acc.2 * (xj - xi) % curveOrder)
  else pure acc

/-- The Lagrange coefficient of node `i` among the first `k` nodes `xs`: the numerator times the
modular inverse of the denominator. -/
def lagrangeDelta (xs : List ℤ) (k i : ℕ) (numFactor : ℤ → ℤ) : Outcome ℤ := do
  let (num, den) ← (List.range k).foldlM (lagrangeStep xs i numFactor) (1, 1)
  -- a nil inverse leaves `den` as it was
  let den := (ModInverse den curveOrder).getD den
  pure (num * den % curveOrder)

/-- One step of the loop over the first `k` shares: the share times its Lagrange coefficient is
added to the sum. -/
def lagrangeSumStep (shares : List Seckey) (xs : List ℤ) (k : ℕ) (numFactor : ℤ → ℤ)
    (secret : ℤ) (i : ℕ) : Outcome ℤ := do
  let delta ← lagrangeDelta xs k i numFactor
  let share ← Outcome.index shares i
  pure ((secret + delta * share.GetBigInt) % curveOrder)

/-- The loop over the first `k` shares. -/
def lagrangeSum (shares : List Seckey) (xs : List ℤ) (k : ℕ) (numFactor : ℤ → ℤ) : Outcome ℤ :=
  (List.range k).foldlM (lagrangeSumStep shares xs k numFactor) 0

/-- `RecoverSeckey`: the value at zero through all the shares given. -/
def RecoverSeckey (secs : List Seckey) (ids : List ID) : Outcome Seckey := do
  let secret ← lagrangeSum secs (ids.map ID.GetBigInt) secs.length id
  pure (NewSeckeyFromBigInt secret)

/-! ## The scalars of the keys

Modulo the order the reductions of the code disappear.  A reduced key is the canonical
representative of its scalar (`ofScalar`), and each function computes the scalar of an
evaluation or an interpolation. -/

/-- The key the code makes for a scalar: its representative in `[0, Order)`. -/
def ofScalar (a : ZMod Order) : Seckey := ⟨a.val⟩

/-- The coefficients of a master key list as a polynomial over the scalars. -/
noncomputable def polyOf (msec : List Seckey) : (ZMod Order)[X] :=
  Interp.ofCoeffs (msec.map fun s => (s.GetBigInt : ZMod Order))

/-- The scalar of the `j`-th entry of a list of big integers, zero past its end. -/
def nodeAt (xs : List ℤ) (j : ℕ) : ZMod Order := (xs.getD j 0 : ℤ)

@[simp] theorem cast_emod_curveOrder (a : ℤ) : ((a % curveOrder : ℤ) : ZMod Order) = a :=
  ZMod.intCast_mod a Order

@[simp] theorem cast_curveOrder : ((curveOrder : ℤ) : ZMod Order) = 0 := by
  simp [curveOrder]

/-- A reduced integer is the representative of its scalar. -/
theorem emod_curveOrder_eq_val (a : ℤ) : a % curveOrder = ((a : ZMod Order).val : ℤ) := by
  rw [ZMod.val_intCast]
  rfl

theorem newSeckeyFromBigInt_eq (b : ℤ) : NewSeckeyFromBigInt b = ofScalar b := by
  rw [NewSeckeyFromBigInt, ofScalar, emod_curveOrder_eq_val]

@[simp] theorem cast_ofScalar (a : ZMod Order) : ((ofScalar a).GetBigInt : ZMod Order) = a := by
  simp [ofScalar, Seckey.GetBigInt]

/-- The inverse the code takes, nil or not, is the inverse of the scalar: the order is prime, so
only a multiple of it has none, and its scalar is zero. -/
theorem cast_modInverse_getD (g : ℤ) :
    (((ModInverse g curveOrder).getD g : ℤ) : ZMod Order) = (g : ZMod Order)⁻¹ := by
  simp only [ModInverse]
  -- a negative `g` is first reduced, which does not change its scalar
  generalize hg : (if g < 0 then g % curveOrder else g) = g'
  have hcast : (g' : ZMod Order) = g := by rw [← hg]; split_ifs <;> simp
  split_ifs with hcop
  · -- Bézout's identity, read modulo the order
    have hb := congrArg (Int.cast : ℤ → ZMod Order) (Int.gcd_eq_gcd_ab g' curveOrder)
    simp only [hcop, Int.cast_add, Int.cast_mul, hcast, cast_curveOrder, zero_mul, add_zero,
      Nat.cast_one, Int.cast_one] at hb
    rw [Option.getD_some, cast_emod_curveOrder]
    exact eq_inv_of_mul_eq_one_right hb.symm
  · have hdvd : (Order : ℤ) ∣ g' := by
      rw [Int.natCast_dvd]
      by_contra hnd
      exact hcop (Nat.Coprime.symm ((Nat.Prime.coprime_iff_not_dvd Bncurve.order_prime).mpr hnd))
    rw [Option.getD_none, ← hcast, (ZMod.intCast_zmod_eq_zero_iff_dvd g' Order).mpr hdvd, inv_zero]

/-! ## What the functions compute -/

/-- `ShareSeckey` is the value of the master polynomial at the identifier. -/
theorem shareSeckey_eq {msec : List Seckey} (h : msec ≠ []) (id : ID) :
    ShareSeckey msec id = .ok (ofScalar ((polyOf msec).eval (id.GetBigInt : ZMod Order))) := by
  obtain ⟨cs, a, rfl⟩ : ∃ cs a, msec = cs ++ [a] := ⟨_, _, (List.dropLast_append_getLast h).symm⟩
  have hlast : (cs ++ [a]).length - 1 < (cs ++ [a]).length := by simp
  rw [ShareSeckey, Outcome.index_of_lt hlast, Outcome.ok_bind, Outcome.pure_eq,
    newSeckeyFromBigInt_eq]
  simp only [List.dropLast_concat, List.length_append, List.length_singleton, Nat.add_sub_cancel,
    List.getElem_concat_length]
  -- the reductions vanish modulo the order, and what is left is Horner's rule
  have hfold : ((cs.reverse.foldl (fun s c => (s * id.GetBigInt + c.GetBigInt) % curveOrder)
      a.GetBigInt : ℤ) : ZMod Order) = (cs.map fun c => (c.GetBigInt : ZMod Order)).reverse.foldl
        (fun s c => s * (id.GetBigInt : ZMod Order) + c) (a.GetBigInt : ZMod Order) := by
    rw [← List.map_reverse, List.foldl_map]
    exact (List.foldl_hom _ fun s c => by simp).symm
  rw [hfold, Interp.foldl_horner, polyOf, List.map_append, List.map_singleton]

section Interpolation

variable {xs : List ℤ} {k i j : ℕ} {numFactor : ℤ → ℤ}

theorem lagrangeStep_eq (hj : j < xs.length) (hi : i < xs.length) (acc : ℤ × ℤ) :
    lagrangeStep xs i numFactor acc j = .ok (if j ≠ i then
      (acc.1 * numFactor (xs.getD j 0) % curveOrder,
        acc.2 * (xs.getD j 0 - xs.getD i 0) % curveOrder) else acc) := by
  unfold lagrangeStep
  split_ifs
  · rw [Outcome.index_eq_getD hj 0, Outcome.ok_bind, Outcome.index_eq_getD hi 0, Outcome.ok_bind,
      Outcome.pure_eq]
  · rfl

/-- The scalars of a numerator and a denominator. -/
def castPair (p : ℤ × ℤ) : ZMod Order × ZMod Order := ((p.1 : ZMod Order), (p.2 : ZMod Order))

/-- Modulo the order, the loop of the Lagrange coefficient multiplies the numerator and the
denominator by one factor each per node other than `i`. -/
theorem lagrangeLoop_cast {t : ZMod Order} (hnum : ∀ z, (numFactor z : ZMod Order) = z - t)
    (init : ℤ × ℤ) :
    castPair ((List.range k).foldl (fun acc j => if j ≠ i then
      (acc.1 * numFactor (xs.getD j 0) % curveOrder,
        acc.2 * (xs.getD j 0 - xs.getD i 0) % curveOrder) else acc) init) =
      castPair init * ∏ j ∈ (range k).erase i, (nodeAt xs j - t, nodeAt xs j - nodeAt xs i) := by
  rw [← Interp.foldl_range_ne_mul]
  exact (List.foldl_hom castPair fun acc j => by split_ifs <;> simp [castPair, nodeAt, hnum]).symm

/-- The Lagrange coefficient the code computes is the representative of Lagrange's weight of
node `i` at the point `t` that `numFactor` subtracts. -/
theorem lagrangeDelta_eq {t : ZMod Order} (hk : k ≤ xs.length) (hi : i < k)
    (hnum : ∀ z, (numFactor z : ZMod Order) = z - t) :
    lagrangeDelta xs k i numFactor =
      .ok ((Interp.weight (range k) (nodeAt xs) t i).val : ℤ) := by
  rw [lagrangeDelta, Outcome.foldlM_eq_ok
    (fun acc j hj => lagrangeStep_eq (by simp at hj; omega) (by omega) acc), Outcome.ok_bind]
  have hcast := @lagrangeLoop_cast xs k i numFactor t hnum (1, 1)
  split
  next num den hP =>
    rw [hP] at hcast
    simp only [castPair, Int.cast_one, Prod.mk_one_one, one_mul, Prod.ext_iff, Prod.fst_prod,
      Prod.snd_prod] at hcast
    rw [Outcome.pure_eq, emod_curveOrder_eq_val, Int.cast_mul, cast_modInverse_getD, hcast.1,
      hcast.2, Interp.weight, prod_div_distrib, div_eq_mul_inv]

/-- A loop that reduces after every step, from zero, ends with a reduced value. -/
theorem foldl_emod_curveOrder {α : Type} (l : List α) (f : ℤ → α → ℤ) :
    l.foldl (fun s a => f s a % curveOrder) 0 % curveOrder =
      l.foldl (fun s a => f s a % curveOrder) 0 := by
  rcases List.eq_nil_or_concat l with rfl | ⟨l, a, rfl⟩
  · rfl
  · rw [List.concat_eq_append, List.foldl_append, List.foldl_cons, List.foldl_nil, Int.emod_emod]

/-- The share of index `i` times its coefficient, added to the sum. -/
theorem lagrangeSumStep_eq {shares : List Seckey} {t : ZMod Order} (hk : k ≤ xs.length)
    (hs : k ≤ shares.length) (hi : i < k) (hnum : ∀ z, (numFactor z : ZMod Order) = z - t)
    (secret : ℤ) :
    lagrangeSumStep shares xs k numFactor secret i =
      .ok ((secret + ((Interp.weight (range k) (nodeAt xs) t i).val : ℤ) *
        (shares.getD i ⟨0⟩).GetBigInt) % curveOrder) := by
  rw [lagrangeSumStep, lagrangeDelta_eq hk hi hnum, Outcome.ok_bind,
    Outcome.index_eq_getD (by omega) ⟨0⟩, Outcome.ok_bind, Outcome.pure_eq]

/-- The sum the code computes is the representative of the weighted sum of the first `k` shares:
Lagrange's formula for the value at `t` of the polynomial through them. -/
theorem lagrangeSum_eq {shares : List Seckey} {t : ZMod Order} (hk : k ≤ xs.length)
    (hs : k ≤ shares.length) (hnum : ∀ z, (numFactor z : ZMod Order) = z - t) :
    lagrangeSum shares xs k numFactor = .ok ((∑ i ∈ range k,
      ((shares.getD i ⟨0⟩).GetBigInt : ZMod Order) * Interp.weight (range k) (nodeAt xs) t i).val
        : ℤ) := by
  rw [lagrangeSum, Outcome.foldlM_eq_ok
    (fun secret i hi => lagrangeSumStep_eq hk hs (List.mem_range.mp hi) hnum secret)]
  -- the loop's value is reduced, and modulo the order it is the weighted sum
  rw [← foldl_emod_curveOrder, emod_curveOrder_eq_val, ← zero_add (∑ i ∈ range k, _),
    ← Interp.foldl_range_add, ← Int.cast_zero]
  congr 3
  exact (List.foldl_hom _ fun s i => by simp [mul_comm]).symm

end Interpolation

/-- `RecoverSeckey` is Lagrange's formula at zero through all the shares given. -/
theorem recoverSeckey_eq {secs : List Seckey} {ids : List ID} (h : secs.length ≤ ids.length) :
    RecoverSeckey secs ids = .ok (ofScalar (∑ i ∈ range secs.length,
      ((secs.getD i ⟨0⟩).GetBigInt : ZMod Order) *
        Interp.weight (range secs.length) (nodeAt (ids.map ID.GetBigInt)) 0 i)) := by
  have hnum : ∀ z : ℤ, ((id z : ℤ) : ZMod Order) = (z : ZMod Order) - 0 := fun z => by simp
  rw [RecoverSeckey, lagrangeSum_eq (by simpa using h) le_rfl hnum, Outcome.ok_bind,
    Outcome.pure_eq, newSeckeyFromBigInt_eq]
  simp

theorem nodeAt_map_of_lt {ids : List ID} {i : ℕ} (hi : i < ids.length) :
    nodeAt (ids.map ID.GetBigInt) i = (ids[i].GetBigInt : ZMod Order) := by
  rw [nodeAt, List.getD_eq_getElem _ _ (by simpa using hi), List.getElem_map]

/-- The scalars of identifiers pairwise distinct modulo the order are distinct nodes. -/
theorem injOn_nodeAt {ids : List ID} (hdist : (ids.map fun id => (id.GetBigInt : ZMod Order)).Nodup) :
    Set.InjOn (nodeAt (ids.map ID.GetBigInt)) (range ids.length) := by
  intro i hi j hj hij
  simp only [coe_range, Set.mem_Iio] at hi hj
  rw [nodeAt_map_of_lt hi, nodeAt_map_of_lt hj] at hij
  have hi' : i < (ids.map fun id => (id.GetBigInt : ZMod Order)).length := by simpa using hi
  have hj' : j < (ids.map fun id => (id.GetBigInt : ZMod Order)).length := by simpa using hj
  exact (@List.Nodup.getElem_inj_iff _ _ hdist i hi' j hj').mp (by simpa using hij)


/-- Shamir's recovery: the values of a polynomial of degree below their number, at identifiers
distinct modulo the order, recover its value at zero. -/
theorem recoverSeckey_of_poly {f : (ZMod Order)[X]} {ids : List ID}
    (hdist : (ids.map fun id => (id.GetBigInt : ZMod Order)).Nodup)
    (hdeg : f.degree < ids.length) :
    RecoverSeckey (ids.map fun id => ofScalar (f.eval (id.GetBigInt : ZMod Order))) ids =
      .ok (ofScalar (f.eval 0)) := by
  rw [recoverSeckey_eq (by simp), List.length_map]
  congr 2
  rw [Interp.eval_eq_sum_weight (injOn_nodeAt hdist) (by rwa [card_range]) 0]
  refine sum_congr rfl fun i hi => ?_
  have hi : i < ids.length := mem_range.mp hi
  rw [List.getD_eq_getElem _ _ (by simpa using hi), List.getElem_map, cast_ofScalar,
    nodeAt_map_of_lt hi]

theorem mapM_shareSeckey {msec : List Seckey} (h : msec ≠ []) (ids : List ID) :
    ids.mapM (ShareSeckey msec) =
      .ok (ids.map fun id => ofScalar ((polyOf msec).eval (id.GetBigInt : ZMod Order))) :=
  Outcome.mapM_eq_ok fun id _ => shareSeckey_eq h id

theorem degree_polyOf_lt (msec : List Seckey) : (polyOf msec).degree < msec.length := by
  unfold polyOf
  simpa using Interp.degree_ofCoeffs_lt (msec.map fun s => (s.GetBigInt : ZMod Order))

@[simp] theorem eval_zero_polyOf (c : Seckey) (cs : List Seckey) :
    (polyOf (c :: cs)).eval 0 = c.GetBigInt := by
  simp [polyOf]

/-- Shares of the master keys at enough identifiers distinct modulo the order recover the first
master key. -/
theorem recoverSeckey_shareSeckey {c : Seckey} {cs : List Seckey} {ids : List ID}
    (hm : (c :: cs).length ≤ ids.length)
    (hdist : (ids.map fun id => (id.GetBigInt : ZMod Order)).Nodup) :
    (ids.mapM (ShareSeckey (c :: cs)) >>= fun shares => RecoverSeckey shares ids) =
      .ok (NewSeckeyFromBigInt c.GetBigInt) := by
  have hdeg : (polyOf (c :: cs)).degree < ids.length :=
    (degree_polyOf_lt _).trans_le (by exact_mod_cast hm)
  rw [mapM_shareSeckey (List.cons_ne_nil c cs), Outcome.ok_bind, recoverSeckey_of_poly hdist hdeg,
    eval_zero_polyOf, newSeckeyFromBigInt_eq]

/-! ## Dealers' shares add up -/

/-- The coefficient-wise sum of two master key lists, the shorter padded with zeros: the
coefficients of the sum of the two polynomials. -/
def addCoeffs (a b : List Seckey) : List Seckey :=
  List.zipWithAll
    (fun x y => ⟨(x.map Seckey.GetBigInt).getD 0 + (y.map Seckey.GetBigInt).getD 0⟩) a b

/-- The coefficient-wise sum of the master key lists of several dealers. -/
def sumCoeffs (dealers : List (List Seckey)) : List Seckey := dealers.foldr addCoeffs []

theorem polyOf_addCoeffs (a b : List Seckey) : polyOf (addCoeffs a b) = polyOf a + polyOf b := by
  induction a generalizing b with
  | nil => simp [addCoeffs, polyOf, Seckey.GetBigInt]
  | cons c as ih =>
    cases b with
    | nil => simp [addCoeffs, polyOf, Seckey.GetBigInt]
    | cons y ys =>
      have hrest := ih ys
      simp only [addCoeffs, polyOf] at hrest ⊢
      rw [List.zipWithAll_cons_cons, List.map_cons, Interp.ofCoeffs_cons, hrest]
      simp only [Option.map_some, Option.getD_some, List.map_cons, Interp.ofCoeffs_cons,
        Int.cast_add, C_add, Seckey.GetBigInt]
      ring

theorem polyOf_sumCoeffs (dealers : List (List Seckey)) :
    polyOf (sumCoeffs dealers) = (dealers.map polyOf).sum := by
  induction dealers with
  | nil => simp [sumCoeffs, polyOf]
  | cons msec dealers ih =>
    rw [sumCoeffs, List.foldr_cons, ← sumCoeffs, polyOf_addCoeffs, ih, List.map_cons, List.sum_cons]

theorem sumCoeffs_ne_nil {dealers : List (List Seckey)} (hd : dealers ≠ [])
    (h : ∀ msec ∈ dealers, msec ≠ []) : sumCoeffs dealers ≠ [] := by
  obtain ⟨msec, rest, rfl⟩ := List.exists_cons_of_ne_nil hd
  obtain ⟨c, cs, hc⟩ := List.exists_cons_of_ne_nil (h msec List.mem_cons_self)
  rw [sumCoeffs, List.foldr_cons, ← sumCoeffs, hc]
  cases sumCoeffs rest <;> simp [addCoeffs]

/-- `AggregateSeckeys` is the representative of the sum of the scalars. -/
theorem aggregateSeckeys_eq {secs : List Seckey} (h : secs ≠ []) :
    AggregateSeckeys secs = some (ofScalar (secs.map fun s => (s.GetBigInt : ZMod Order)).sum) := by
  obtain ⟨sec, secs, rfl⟩ := List.exists_cons_of_ne_nil h
  rw [AggregateSeckeys, ← NewSeckeyFromBigInt, newSeckeyFromBigInt_eq, List.map_cons,
    List.sum_cons]
  congr 2
  -- modulo the order the loop adds the scalars one by one
  have hloop : ∀ (a : ℤ) (l : List Seckey), ((l.foldl (fun acc s => acc + s.GetBigInt) a : ℤ) :
      ZMod Order) = a + (l.map fun s => (s.GetBigInt : ZMod Order)).sum := by
    intro a l
    induction l generalizing a with
    | nil => simp
    | cons s l ih => simp [ih, add_assoc]
  exact hloop _ _

/-- The aggregate of several dealers' shares at one identifier is the share of the sum of their
polynomials. -/
theorem aggregateSeckeys_shareSeckey {dealers : List (List Seckey)} (id : ID) (hd : dealers ≠ [])
    (h : ∀ msec ∈ dealers, msec ≠ []) :
    (dealers.mapM (fun msec => ShareSeckey msec id) >>= fun shares =>
        pure (AggregateSeckeys shares)) =
      (ShareSeckey (sumCoeffs dealers) id >>= fun s => pure (some s)) := by
  rw [Outcome.mapM_eq_ok fun msec hm => shareSeckey_eq (h msec hm) id, Outcome.ok_bind,
    shareSeckey_eq (sumCoeffs_ne_nil hd h), Outcome.ok_bind, Outcome.pure_eq, Outcome.pure_eq,
    aggregateSeckeys_eq (by simpa using hd), polyOf_sumCoeffs, eval_listSum, List.map_map,
    List.map_map]
  simp [Function.comp_def]

/-- Shamir's scheme as the code runs it: shares of master keys `c :: cs` at enough identifiers
distinct modulo the order recover the first key reduced, in whatever order the pairs of share
and identifier come; and the aggregate of dealers' shares at an identifier is the share of the
coefficient-wise sum of their master keys. -/
theorem shamir_share_recover (c : Seckey) (cs : List Seckey) (ids : List ID)
    (hm : (c :: cs).length ≤ ids.length)
    (hdist : (ids.map fun id => (id.GetBigInt : ZMod Order)).Nodup) :
    (ids.mapM (ShareSeckey (c :: cs)) >>= fun shares => RecoverSeckey shares ids) =
        .ok (NewSeckeyFromBigInt c.GetBigInt) ∧
      (∀ ids' : List ID, ids'.Perm ids →
        (ids'.mapM (ShareSeckey (c :: cs)) >>= fun shares => RecoverSeckey shares ids') =
          (ids.mapM (ShareSeckey (c :: cs)) >>= fun shares => RecoverSeckey shares ids)) ∧
      (∀ (dealers : List (List Seckey)) (id : ID), dealers ≠ [] → (∀ msec ∈ dealers, msec ≠ []) →
        (dealers.mapM (fun msec => ShareSeckey msec id) >>= fun shares =>
            pure (AggregateSeckeys shares)) =
          (ShareSeckey (sumCoeffs dealers) id >>= fun s => pure (some s))) := by
  refine ⟨recoverSeckey_shareSeckey hm hdist, fun ids' hperm => ?_,
    fun dealers id hd h => aggregateSeckeys_shareSeckey id hd h⟩
  -- a reordering keeps the number of identifiers and their distinctness
  have hm' : (c :: cs).length ≤ ids'.length := hperm.length_eq ▸ hm
  have hdist' : (ids'.map fun id => (id.GetBigInt : ZMod Order)).Nodup :=
    ((hperm.map _).nodup_iff).mpr hdist
  rw [recoverSeckey_shareSeckey hm' hdist', recoverSeckey_shareSeckey hm hdist]

/-- The master keys `5, 3` shared at the identifiers `1, 2`. -/
theorem shamir_share_recover_at_one_two :
    ([⟨5⟩, ⟨3⟩] : List Seckey).length ≤ ([⟨1⟩, ⟨2⟩] : List ID).length ∧
      (([⟨1⟩, ⟨2⟩] : List ID).map fun id => (id.GetBigInt : ZMod Order)).Nodup ∧
      (([⟨1⟩, ⟨2⟩] : List ID).mapM (ShareSeckey [⟨5⟩, ⟨3⟩]) >>= fun shares =>
          RecoverSeckey shares [⟨1⟩, ⟨2⟩]) = .ok (NewSeckeyFromBigInt 5) :=
  ⟨by decide, by decide, (shamir_share_recover ⟨5⟩ [⟨3⟩] [⟨1⟩, ⟨2⟩] (by decide) (by decide)).1⟩

/-! ## Checking share pieces -/

/-- The shares of the polynomial `f` at the identifiers. -/
def sharesOf (f : (ZMod Order)[X]) (ids : List ID) : List Seckey :=
  ids.map fun id => ofScalar (f.eval (id.GetBigInt : ZMod Order))

/-- The loop of Lagrange terms through the first `k` shares, when they are values of a polynomial
of degree below `k` at distinct nodes, computes its value at the point `numFactor` subtracts. -/
theorem lagrangeSum_of_poly {shares : List Seckey} {xs : List ℤ} {k : ℕ} {numFactor : ℤ → ℤ}
    {t : ZMod Order} {f : (ZMod Order)[X]} (hk : k ≤ xs.length) (hs : k ≤ shares.length)
    (hinj : Set.InjOn (nodeAt xs) (range k)) (hdeg : f.degree < k)
    (hvals : ∀ i < k, ((shares.getD i ⟨0⟩).GetBigInt : ZMod Order) = f.eval (nodeAt xs i))
    (hnum : ∀ z, (numFactor z : ZMod Order) = z - t) :
    lagrangeSum shares xs k numFactor = .ok ((f.eval t).val : ℤ) := by
  rw [lagrangeSum_eq hk hs hnum, Interp.eval_eq_sum_weight hinj (by rwa [card_range]) t]
  congr 3
  exact sum_congr rfl fun i hi => by rw [hvals i (mem_range.mp hi)]


section Pubkey

variable {G2 : Type} [AddCommGroup G2] [Module (ZMod Order) G2]

/-- `NewPubkeyFromSeckey`: `ScalarBaseMult` of the key on the base point of G2. -/
def NewPubkeyFromSeckey (base : G2) (sec : Seckey) : G2 := (sec.GetBigInt : ZMod Order) • base

variable [DecidableEq G2]

/-- `CheckSharePiecesValid`: every share from index `k + 1` on is the value at its identifier of
the polynomial through the first `k` shares, and that polynomial's value at zero has the public
key `pk0`. -/
def CheckSharePiecesValid (base : G2) (shares : List Seckey) (ids : List ID) (k : ℤ) (pk0 : G2) :
    Outcome Bool := do
  if shares = [] ∨ ids = [] then .error "invalid input parameters in CheckSharePiecesValid"
  if shares.length ≠ ids.length then
    .error "invalid parameters, shares and ids are not same size"
  let n := shares.length
  if k > n ∨ k ≤ 0 then .error "invalid threshold k in CheckSharePiecesValid"
  let xs := ids.map ID.GetBigInt
  let k := k.toNat
  -- `for m := k + 1; m < n; m++`, returning false at the first share that does not fit;
  -- `xs[m]` is read once here, where the source reads it in the inner loop
  let fits ← (List.range' (k + 1) (n - (k + 1))).allM fun m => do
    let xm ← Outcome.index xs m
    let result ← lagrangeSum shares xs k (· - xm)
    let share ← Outcome.index shares m
    pure (result == share.GetBigInt)
  if fits then
    let a0 ← lagrangeSum shares xs k id
    pure (NewPubkeyFromSeckey base (NewSeckeyFromBigInt a0) == pk0)
  else pure false

end Pubkey

section Check

variable {G2 : Type} [AddCommGroup G2] [Module (ZMod Order) G2] [DecidableEq G2]

/-- With valid parameters, `CheckSharePiecesValid` runs its two interpolations. -/
theorem checkSharePiecesValid_eq {base pk0 : G2} {shares : List Seckey} {ids : List ID} {k : ℕ}
    (hs : shares ≠ []) (hlen : shares.length = ids.length) (hk0 : 0 < k) (hkn : k ≤ ids.length) :
    CheckSharePiecesValid base shares ids k pk0 = (do
      let fits ← (List.range' (k + 1) (ids.length - (k + 1))).allM fun m => do
        let xm ← Outcome.index (ids.map ID.GetBigInt) m
        let result ← lagrangeSum shares (ids.map ID.GetBigInt) k (· - xm)
        let share ← Outcome.index shares m
        pure (result == share.GetBigInt)
      if fits then
        let a0 ← lagrangeSum shares (ids.map ID.GetBigInt) k id
        pure (NewPubkeyFromSeckey base (NewSeckeyFromBigInt a0) == pk0)
      else pure false) := by
  have hids : ids ≠ [] := by rw [← List.length_pos_iff, ← hlen]; exact List.length_pos_iff.mpr hs
  have hk : ¬((k : ℤ) > (ids.length : ℤ) ∨ (k : ℤ) ≤ 0) := by omega
  simp only [CheckSharePiecesValid, hs, hids, or_self, hlen, ne_eq, not_true_eq_false, hk,
    if_false, Int.toNat_natCast]

theorem getD_set_sharesOf {f : (ZMod Order)[X]} {ids : List ID} {k i : ℕ} {v : Seckey}
    (hi : i < ids.length) (hik : i ≠ k) :
    ((sharesOf f ids).set k v).getD i ⟨0⟩ = ofScalar (f.eval (ids[i].GetBigInt : ZMod Order)) := by
  rw [List.getD_eq_getElem _ _ (by simpa [sharesOf] using hi), List.getElem_set_ne hik.symm]
  simp [sharesOf]

/-- `CheckSharePiecesValid` never reads the share of index `k`: the shares of a polynomial of
degree below `k` with a wrong share at index `k` pass the check, although no polynomial of degree
below `k` takes the shares' values at all the identifiers. -/
theorem checkSharePiecesValid_accepts_wrong_piece (base : G2) (f : (ZMod Order)[X]) (ids : List ID)
    (k : ℕ) (v : Seckey) (hk : 0 < k) (hkn : k < ids.length) (hdeg : f.degree < k)
    (hdist : (ids.map fun id => (id.GetBigInt : ZMod Order)).Nodup)
    (hv : (v.GetBigInt : ZMod Order) ≠ f.eval (ids[k].GetBigInt : ZMod Order)) :
    CheckSharePiecesValid base ((sharesOf f ids).set k v) ids k
        (NewPubkeyFromSeckey base (ofScalar (f.eval 0))) = .ok true ∧
      ¬ ∃ g : (ZMod Order)[X], g.degree < k ∧ ∀ i (hi : i < ids.length),
        g.eval (ids[i].GetBigInt : ZMod Order) =
          ((((sharesOf f ids).set k v).getD i ⟨0⟩).GetBigInt : ZMod Order) := by
  set xs := ids.map ID.GetBigInt
  have hlen : ((sharesOf f ids).set k v).length = ids.length := by simp [sharesOf]
  have hinj : Set.InjOn (nodeAt xs) (range k) :=
    (injOn_nodeAt hdist).mono (by simpa using hkn.le)
  -- the first `k` shares are the polynomial's
  have hvals : ∀ i < k, ((((sharesOf f ids).set k v).getD i ⟨0⟩).GetBigInt : ZMod Order) =
      f.eval (nodeAt xs i) := fun i hi => by
    rw [getD_set_sharesOf (by omega) (by omega), cast_ofScalar, nodeAt_map_of_lt (by omega)]
  have hsum : ∀ {numFactor : ℤ → ℤ} {t : ZMod Order},
      (∀ z, (numFactor z : ZMod Order) = z - t) →
      lagrangeSum ((sharesOf f ids).set k v) xs k numFactor = .ok ((f.eval t).val : ℤ) :=
    fun hnum => lagrangeSum_of_poly (by simp [xs]; omega) (by omega) hinj hdeg hvals hnum
  refine ⟨?_, ?_⟩
  · have h0 : ∀ z : ℤ, ((id z : ℤ) : ZMod Order) = (z : ZMod Order) - 0 := fun z => by simp
    rw [checkSharePiecesValid_eq (by rw [← List.length_pos_iff, hlen]; omega) hlen hk hkn.le,
      Outcome.allM_eq_ok_true_iff.mpr fun m hm => ?_, Outcome.ok_bind, if_pos rfl, hsum h0,
      Outcome.ok_bind, Outcome.pure_eq, newSeckeyFromBigInt_eq]
    · simp
    -- every later share is checked against the value the first `k` shares interpolate
    obtain ⟨hkm, hmn⟩ : k + 1 ≤ m ∧ m < ids.length := by
      simp only [List.mem_range'_1] at hm
      omega
    have hxm : ∀ z : ℤ, ((z - xs.getD m 0 : ℤ) : ZMod Order) = (z : ZMod Order) - nodeAt xs m :=
      fun z => by simp [nodeAt]
    rw [Outcome.index_eq_getD (by simpa [xs] using hmn) 0, Outcome.ok_bind, hsum hxm,
      Outcome.ok_bind, Outcome.index_eq_getD (by rw [hlen]; exact hmn) ⟨0⟩, Outcome.ok_bind,
      getD_set_sharesOf hmn (by omega), nodeAt_map_of_lt hmn]
    simp [ofScalar, Seckey.GetBigInt]
  · rintro ⟨g, hg, hgvals⟩
    -- `g` agrees with `f` at the first `k` identifiers, so it is `f` ...
    have hfg : f = g := Interp.eq_of_eval_eq hinj (by rwa [card_range]) (by rwa [card_range])
      fun i hi => by
        have hi : i < k := mem_range.mp hi
        rw [← hvals i hi, nodeAt_map_of_lt (show i < ids.length by omega), hgvals i]
    -- ... and at the identifier of index `k` it would take the wrong share
    have hk' := hgvals k hkn
    rw [← hfg, List.getD_eq_getElem _ _ (by rw [hlen]; exact hkn), List.getElem_set_self] at hk'
    exact hv hk'.symm

/-- The constant `5` shared at the identifiers `1, 2` with threshold one, and `6` in place of the
share of index one: the check passes. -/
theorem checkSharePiecesValid_accepts_six_at_two :
    0 < 1 ∧ 1 < ([⟨1⟩, ⟨2⟩] : List ID).length ∧ (C (5 : ZMod Order)).degree < (1 : ℕ) ∧
      (([⟨1⟩, ⟨2⟩] : List ID).map fun id => (id.GetBigInt : ZMod Order)).Nodup ∧
      ((⟨6⟩ : Seckey).GetBigInt : ZMod Order) ≠
        (C (5 : ZMod Order)).eval ((⟨2⟩ : ID).GetBigInt : ZMod Order) ∧
      (CheckSharePiecesValid (1 : ZMod Order) ((sharesOf (C 5) [⟨1⟩, ⟨2⟩]).set 1 ⟨6⟩) [⟨1⟩, ⟨2⟩] 1
          (NewPubkeyFromSeckey (1 : ZMod Order) (ofScalar ((C (5 : ZMod Order)).eval 0))) =
          .ok true ∧
        ¬ ∃ g : (ZMod Order)[X], g.degree < (1 : ℕ) ∧ ∀ i (hi : i < ([⟨1⟩, ⟨2⟩] : List ID).length),
          g.eval (([⟨1⟩, ⟨2⟩] : List ID)[i].GetBigInt : ZMod Order) =
            ((((sharesOf (C 5) [⟨1⟩, ⟨2⟩]).set 1 ⟨6⟩).getD i ⟨0⟩).GetBigInt : ZMod Order)) := by
  have hdeg : (C (5 : ZMod Order)).degree < (1 : ℕ) := by
    simpa using (degree_C_lt : (C (5 : ZMod Order)).degree < 1)
  have hv : ((⟨6⟩ : Seckey).GetBigInt : ZMod Order) ≠
      (C (5 : ZMod Order)).eval ((⟨2⟩ : ID).GetBigInt : ZMod Order) := by
    simp only [eval_C, Seckey.GetBigInt]
    decide
  exact ⟨by decide, by decide, hdeg, by decide, hv,
    checkSharePiecesValid_accepts_wrong_piece 1 (C 5) [⟨1⟩, ⟨2⟩] 1 ⟨6⟩ (by decide) (by decide)
      hdeg (by decide) hv⟩

end Check

end Zvchain
