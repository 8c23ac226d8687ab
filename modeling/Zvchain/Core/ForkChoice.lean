import Zvchain.Types.Block

/-!
# Fork choice by block weight

`BlockWeight.Cmp` is a chain of comparisons (`cmp_eq`): `TotalQN`, the normalised proof value when
both blocks are past ZIP001, the proof value, and the hash when both are past ZIP003 and the proof
values are equal.  It is antisymmetric for all weights (`cmp_swap`).  Among blocks of one fork era,
where both fork tests give the same answers, it is a lexicographic order on keys, so transitive
(`cmp_isGE_trans_of_era`).  Across the height of ZIP001 the criteria of a pair depend on the pair,
and three weights can form a cycle; the loop of `getCandidate` in block sync, which keeps the
first greatest top of `candidatePool` in the order of the map, then picks a different top for a
different order.
-/

namespace Zvchain

open Std

/-- The loop of `blockSyncer.getCandidate` over `candidatePool`, taking each candidate by its
peer and the weight of its top: the first top of the greatest weight, and the peers whose tops
weigh as much. -/
def getCandidateLoop {σ Address : Type} (cfg : ChainConfig) (stakeGetter : Option (StakeGetter Address)) :
    List (σ × BlockWeight Address) → Option (BlockWeight Address) → List σ →
      Option (BlockWeight Address) × List σ
  | [], maxWeightBlock, maxWeightCandidates => (maxWeightBlock, maxWeightCandidates)
  | (id, top) :: rest, none, _ => getCandidateLoop cfg stakeGetter rest (some top) [id]
  | (id, top) :: rest, some maxWeightBlock, maxWeightCandidates =>
    match top.Cmp cfg stakeGetter maxWeightBlock with
    | .eq => getCandidateLoop cfg stakeGetter rest (some maxWeightBlock) (maxWeightCandidates ++ [id])
    | .gt => getCandidateLoop cfg stakeGetter rest (some top) [id]
    | .lt => getCandidateLoop cfg stakeGetter rest (some maxWeightBlock) maxWeightCandidates

namespace BlockWeight

variable {Address : Type} (cfg : ChainConfig) (stakeGetter : Option (StakeGetter Address))

/-- The comparison of `Cmp` by normalised proof value, `.eq` where it does not apply. -/
def npvStage (bw bw2 : BlockWeight Address) : Ordering :=
  match stakeGetter with
  | some getter =>
    if cfg.IsZIP001 bw.height ∧ cfg.IsZIP001 bw2.height then
      compare (bw.normalizePV getter) (bw2.normalizePV getter)
    else .eq
  | none => .eq

/-- The comparison of `Cmp` by hash, `.eq` where it does not apply. -/
def hashStage (bw bw2 : BlockWeight Address) : Ordering :=
  if cfg.IsZIP003 bw.height ∧ cfg.IsZIP003 bw2.height then compare bw.hash.Big bw2.hash.Big
  else .eq

/-- `Cmp` is its comparisons one after the other. -/
theorem cmp_eq (bw bw2 : BlockWeight Address) :
    bw.Cmp cfg stakeGetter bw2 = (compare bw.totalQN bw2.totalQN).then
      ((npvStage cfg stakeGetter bw bw2).then ((compare bw.pv bw2.pv).then (hashStage cfg bw bw2))) := by
  unfold Cmp
  by_cases hgt : bw.totalQN > bw2.totalQN
  · rw [if_pos hgt, compare_eq_gt.mpr hgt]
    rfl
  · by_cases hlt : bw.totalQN < bw2.totalQN
    · rw [if_neg hgt, if_pos hlt, compare_eq_lt.mpr hlt]
      rfl
    · have heq : compare bw.totalQN bw2.totalQN = .eq := by
        rw [Std.compare_eq_iff_eq]
        exact UInt64.le_antisymm (UInt64.not_lt.mp hgt) (UInt64.not_lt.mp hlt)
      rw [if_neg hgt, if_neg hlt, heq, Ordering.eq_then]
      show (if npvStage cfg stakeGetter bw bw2 ≠ .eq then npvStage cfg stakeGetter bw bw2 else
        if compare bw.pv bw2.pv = .eq ∧ cfg.IsZIP003 bw.height ∧ cfg.IsZIP003 bw2.height then
          compare bw.hash.Big bw2.hash.Big
        else compare bw.pv bw2.pv) = _
      by_cases hn : npvStage cfg stakeGetter bw bw2 = .eq
      · -- the proof values decide, and the hashes where they are equal past ZIP003
        rw [if_neg (not_not_intro hn), hn, Ordering.eq_then]
        cases hp : compare bw.pv bw2.pv <;> simp [hashStage]
      · rw [if_pos hn]
        cases h : npvStage cfg stakeGetter bw bw2 with
        | eq => exact absurd h hn
        | lt => rfl
        | gt => rfl

theorem npvStage_swap (bw bw2 : BlockWeight Address) :
    npvStage cfg stakeGetter bw bw2 = (npvStage cfg stakeGetter bw2 bw).swap := by
  unfold npvStage
  cases stakeGetter with
  | none => rfl
  | some getter =>
    dsimp only
    by_cases h : cfg.IsZIP001 bw.height ∧ cfg.IsZIP001 bw2.height
    · rw [if_pos h, if_pos h.symm]
      exact OrientedCmp.eq_swap
    · rw [if_neg h, if_neg (fun h' => h h'.symm)]
      rfl

theorem hashStage_swap (bw bw2 : BlockWeight Address) :
    hashStage cfg bw bw2 = (hashStage cfg bw2 bw).swap := by
  unfold hashStage
  by_cases h : cfg.IsZIP003 bw.height ∧ cfg.IsZIP003 bw2.height
  · rw [if_pos h, if_pos h.symm]
    exact OrientedCmp.eq_swap
  · rw [if_neg h, if_neg (fun h' => h h'.symm)]
    rfl

/-- `Cmp` is antisymmetric: `Cmp(a, b) = -Cmp(b, a)` for all weights. -/
theorem cmp_swap (bw bw2 : BlockWeight Address) :
    bw.Cmp cfg stakeGetter bw2 = (bw2.Cmp cfg stakeGetter bw).swap := by
  rw [cmp_eq, cmp_eq, Ordering.swap_then, Ordering.swap_then, Ordering.swap_then,
    ← npvStage_swap, ← hashStage_swap, ← OrientedCmp.eq_swap, ← OrientedCmp.eq_swap]

/-! ## One fork era -/

/-- The fork tests `Cmp` reads at a height. -/
def era (h : UInt64) : Bool × Bool := (cfg.IsZIP001 h, cfg.IsZIP003 h)

/-- The comparison by normalised proof value within an era. -/
def npvEra : Bool → Option (StakeGetter Address) → BlockWeight Address → BlockWeight Address → Ordering
  | true, some getter => compareOn (normalizePV getter)
  | _, _ => fun _ _ => .eq

/-- The comparison by hash within an era. -/
def hashEra : Bool → BlockWeight Address → BlockWeight Address → Ordering
  | true => compareOn fun bw => bw.hash.Big
  | false => fun _ _ => .eq

/-- `Cmp` within an era: a lexicographic comparison of keys. -/
def eraCmp (z : Bool × Bool) : BlockWeight Address → BlockWeight Address → Ordering :=
  compareLex (compareOn (·.totalQN))
    (compareLex (npvEra z.1 stakeGetter) (compareLex (compareOn (·.pv)) (hashEra z.2)))

instance transCmp_const_eq {α : Type} : TransCmp fun _ _ : α => Ordering.eq where
  eq_swap := rfl
  isLE_trans _ _ := rfl

instance (z : Bool) (g : Option (StakeGetter Address)) : TransCmp (npvEra z g) := by
  cases z <;> cases g <;> unfold npvEra <;> infer_instance

instance (z : Bool) : TransCmp (@hashEra Address z) := by
  cases z <;> unfold hashEra <;> infer_instance

instance (z : Bool × Bool) : TransCmp (eraCmp stakeGetter z) := by
  unfold eraCmp
  infer_instance

theorem cmp_eq_eraCmp {z : Bool × Bool} {bw bw2 : BlockWeight Address} (h : era cfg bw.height = z)
    (h2 : era cfg bw2.height = z) : bw.Cmp cfg stakeGetter bw2 = eraCmp stakeGetter z bw bw2 := by
  obtain ⟨z1, z3⟩ := z
  simp only [era, Prod.mk.injEq] at h h2
  rw [cmp_eq]
  unfold eraCmp compareLex compareOn
  congr 2
  · unfold npvStage npvEra
    cases stakeGetter <;> cases z1 <;> simp [h.1, h2.1, compareOn]
  · unfold hashStage hashEra
    cases z3 <;> simp [h.2, h2.2, compareOn]

/-- Among weights of one fork era, not being less is transitive. -/
theorem cmp_isGE_trans_of_era {a b c : BlockWeight Address} (hab : era cfg a.height = era cfg b.height)
    (hbc : era cfg b.height = era cfg c.height)
    (h1 : (a.Cmp cfg stakeGetter b).isGE) (h2 : (b.Cmp cfg stakeGetter c).isGE) :
    (a.Cmp cfg stakeGetter c).isGE := by
  rw [cmp_eq_eraCmp cfg stakeGetter hab rfl] at h1
  rw [cmp_eq_eraCmp cfg stakeGetter rfl hbc.symm] at h2
  rw [cmp_eq_eraCmp cfg stakeGetter hab hbc.symm]
  exact TransCmp.isGE_trans h1 h2

/-- `Cmp` orders the weights of one fork era: it is antisymmetric for all weights, and among
weights whose heights give the same answers to the ZIP001 and ZIP003 tests, not being less is
transitive. -/
theorem cmp_orders_one_era :
    (∀ bw bw2 : BlockWeight Address,
      bw.Cmp cfg stakeGetter bw2 = (bw2.Cmp cfg stakeGetter bw).swap) ∧
    ∀ a b c : BlockWeight Address, era cfg a.height = era cfg b.height →
      era cfg b.height = era cfg c.height → (a.Cmp cfg stakeGetter b).isGE →
        (b.Cmp cfg stakeGetter c).isGE → (a.Cmp cfg stakeGetter c).isGE :=
  ⟨cmp_swap cfg stakeGetter, fun _ _ _ hab hbc h1 h2 =>
    cmp_isGE_trans_of_era cfg stakeGetter hab hbc h1 h2⟩

end BlockWeight

open BlockWeight in
/-- Three weights of equal `TotalQN` at the heights of ZIP001 and the one before, the first two
normalised by stakes `1` and `10`: each is heavier than the next and the last heavier than the
first, and `getCandidate` over the same three peers picks the top it meets last among them. -/
theorem cmp_cycle_across_zip001 :
    let getter : StakeGetter ℕ := fun p _ => if p = 1 then 1 else 10
    let weight := NewBlockWeight (fun b => (Bytes.ofBE b : ℤ)) Bytes.ofBE
    let a := weight ⟨BytesToHash [1], 931588, BytesToHash [0], [10], 7, [1], BytesToHash [0]⟩
    let b := weight ⟨BytesToHash [2], 931588, BytesToHash [0], [30], 7, [2], BytesToHash [0]⟩
    let c := weight ⟨BytesToHash [3], 931587, BytesToHash [0], [20], 7, [3], BytesToHash [0]⟩
    a.Cmp config (some getter) b = .gt ∧ b.Cmp config (some getter) c = .gt ∧
      a.Cmp config (some getter) c = .lt ∧
      (getCandidateLoop config (some getter) [(1, a), (2, b), (3, c)] none []).1 = some c ∧
      (getCandidateLoop config (some getter) [(2, b), (3, c), (1, a)] none []).1 = some a := by
  decide +kernel

end Zvchain
