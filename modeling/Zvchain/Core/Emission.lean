import Zvchain.Core.Rewards
import Zvchain.Lib.Outcome

/-!
# What one block emits (`stateProcessor.process`, `rewardExecutor`)

After the transactions of a block, `process` credits the daemon and the user nodes with their
shares of the block reward, and the castor with its shares of the reward and of the block's gas
fee.  The verifiers' shares and the packer's fee are credited later by the block's reward
transaction, whose pack fee and value `VerifyRewardTransaction` checks against
`CalculateCastRewardShare`, and which runs once per block: `rewardExecutor` refuses a block the
reward store already records (`HasRewardedOfBlock`) and records the block it rewards
(`MarkBlockRewarded`).

Every share is computed in `uint64`, multiplying first.  The shares of the block reward never
wrap, a reward being below `2 ^ 36` and a weight below `2 ^ 13`.  The castor's share of the gas
fee, `gasFee * 9 / 10`, wraps once the fee passes `⌊(2 ^ 64 - 1) / 9⌋` and is then far below nine
tenths of the fee (nothing at the fee `2049638230412172402`); it still stays within the fee, so the
three splits keep within what they split for every height and fee, and the credits on account
of one block, over any run of reward transactions, are at most its reward and its gas fee
(`block_emission_bounded`).
-/

namespace Zvchain

/-! ## The shares in `ℕ` -/

section Shares

variable (height gasFee : UInt64)

private theorem div_add_div_add_div_le (a b c d : ℕ) : a / d + b / d + c / d ≤ (a + b + c) / d :=
  calc a / d + b / d + c / d ≤ (a + b) / d + c / d :=
        Nat.add_le_add_right Nat.div_add_div_le_add_div _
    _ ≤ (a + b + c) / d := Nat.div_add_div_le_add_div

theorem blockRewards_toNat_le : (blockRewards height).toNat ≤ 62224000000 := by
  unfold blockRewards
  split_ifs
  · simp
  · rw [Word64.toNat_shr]
    exact Nat.div_le_self _ _

/-- A block with a reward is at most `noRewardsHeight`, twelve weight periods. -/
theorem period_le_of_blockRewards_ne_zero (h : blockRewards height ≠ 0) :
    height.toNat / 10000000 ≤ 12 := by
  unfold blockRewards at h
  split_ifs at h with hgt
  · exact absurd rfl h
  · rw [gt_iff_lt, Word64.lt_iff, not_lt] at hgt
    have : noRewardsHeight.toNat = 120000000 := rfl
    omega

theorem userNodesRewards_toNat :
    (userNodesRewards height).toNat = (blockRewards height).toNat * 100 / 7000 := by
  dsimp only [userNodesRewards]
  split_ifs with h0
  · simp [h0]
  · have hr := blockRewards_toNat_le height
    exact Word64.toNat_mul_div_of_lt (show _ * 100 < _ by omega)

/-- The weight adjustment of twelve periods or fewer does not wrap. -/
theorem adjustment_toNat (hp : height.toNat / 10000000 ≤ 12) :
    (height / adjustWeightPeriod * adjustWeight).toNat = height.toNat / 10000000 * 80 := by
  rw [UInt64.toNat_mul, UInt64.toNat_div]
  exact Nat.mod_eq_of_lt (by change height.toNat / 10000000 * 80 < 2 ^ 64; omega)

theorem daemonNodesRewards_toNat :
    (daemonNodesRewards height).toNat =
      (blockRewards height).toNat * (440 + height.toNat / 10000000 * 80) / 7000 := by
  dsimp only [daemonNodesRewards]
  split_ifs with h0
  · simp [h0]
  · have hp := period_le_of_blockRewards_ne_zero height h0
    have hw : (initialDaemonNodeWeight + height / adjustWeightPeriod * adjustWeight).toNat =
        440 + height.toNat / 10000000 * 80 := by
      rw [Word64.toNat_add_of_lt (by rw [adjustment_toNat height hp]; change 440 + _ < _; omega),
        adjustment_toNat height hp]
      rfl
    have hprod := Nat.mul_le_mul (blockRewards_toNat_le height) 
      (show 440 + height.toNat / 10000000 * 80 ≤ 1400 by omega)
    rw [Word64.toNat_mul_div_of_lt (by rw [hw]; omega), hw]
    rfl

theorem minerNodesRewards_toNat :
    (minerNodesRewards height).toNat =
      (blockRewards height).toNat * (6460 - height.toNat / 10000000 * 80) / 7000 := by
  dsimp only [minerNodesRewards]
  split_ifs with h0 hgt
  · simp [h0]
  all_goals
    have hp := period_le_of_blockRewards_ne_zero height h0
    -- the weight falls by 80 a period, and twelve periods keep it positive
    have hw : (initialMinerNodeWeight - height / adjustWeightPeriod * adjustWeight).toNat =
        6460 - height.toNat / 10000000 * 80 := by
      rw [UInt64.toNat_sub_of_le _ _ (by
        rw [Word64.le_iff, adjustment_toNat height hp]; change _ ≤ 6460; omega),
        adjustment_toNat height hp]
      rfl
  · rw [gt_iff_lt, Word64.lt_iff, hw] at hgt
    change 7000 < _ at hgt
    omega
  · have hprod := Nat.mul_le_mul (blockRewards_toNat_le height) (Nat.sub_le 6460 (height.toNat / 10000000 * 80))
    rw [Word64.toNat_mul_div_of_lt (by rw [hw]; omega), hw]
    rfl

/-- The three node shares keep within the block reward: their weights add up to the total. -/
theorem nodeShares_le :
    (daemonNodesRewards height).toNat + (userNodesRewards height).toNat +
      (minerNodesRewards height).toNat ≤ (blockRewards height).toNat := by
  by_cases h0 : blockRewards height = 0
  · simp [daemonNodesRewards, userNodesRewards, minerNodesRewards, h0]
  · have hp := period_le_of_blockRewards_ne_zero height h0
    rw [daemonNodesRewards_toNat, userNodesRewards_toNat, minerNodesRewards_toNat]
    set r := (blockRewards height).toNat
    set p := height.toNat / 10000000
    have hsum : r * (440 + p * 80) + r * 100 + r * (6460 - p * 80) = r * 7000 := by
      rw [← Nat.mul_add, ← Nat.mul_add]
      congr 1
      omega
    calc r * (440 + p * 80) / 7000 + r * 100 / 7000 + r * (6460 - p * 80) / 7000
        ≤ (r * (440 + p * 80) + r * 100 + r * (6460 - p * 80)) / 7000 :=
          div_add_div_add_div_le _ _ _ _
      _ = r := by rw [hsum, Nat.mul_div_cancel r (by norm_num)]

theorem minerNodesRewards_toNat_le : (minerNodesRewards height).toNat ≤ 62224000000 := by
  have := nodeShares_le height
  have := blockRewards_toNat_le height
  omega

theorem minerNodesRewardsShare_toNat {weight : UInt64} (hw : weight.toNat ≤ 10) :
    (minerNodesRewardsShare weight height).toNat = (minerNodesRewards height).toNat * weight.toNat / 10 := by
  have hm := minerNodesRewards_toNat_le height
  exact Word64.toNat_mul_div_of_lt (by nlinarith)

/-- The castor's, the packer's and the verifiers' shares keep within the miners' share. -/
theorem minerShares_le :
    (calculateCastorRewards height).toNat + (calculatePackedRewards height).toNat +
      (calculateVerifyRewards height).toNat ≤ (minerNodesRewards height).toNat := by
  rw [calculateCastorRewards, calculatePackedRewards, calculateVerifyRewards,
    minerNodesRewardsShare_toNat height (by decide), minerNodesRewardsShare_toNat height (by decide),
    minerNodesRewardsShare_toNat height (by decide)]
  set m := (minerNodesRewards height).toNat
  calc m * castorRewardsWeight.toNat / 10 + m * packedRewardsWeight.toNat / 10 +
        m * verifyRewardsWeight.toNat / 10
      ≤ (m * castorRewardsWeight.toNat + m * packedRewardsWeight.toNat +
          m * verifyRewardsWeight.toNat) / 10 := div_add_div_add_div_le _ _ _ _
    _ = m := by
      change (m * 8 + m * 1 + m * 1) / 10 = m
      omega

/-- The gas-fee share of a weight: the product wraps modulo `2 ^ 64` before the division. -/
theorem gasFeeShare_toNat (weight : UInt64) :
    (gasFeeShare weight gasFee).toNat = gasFee.toNat * weight.toNat % 2 ^ 64 / 10 := by
  rw [gasFeeShare, UInt64.toNat_div, UInt64.toNat_mul]
  rfl

/-- The two gas-fee shares keep within the fee, the wrapped castor's share included. -/
theorem gasFeeShares_le :
    (calculateGasFeeCastorRewards gasFee).toNat + (calculateGasFeeVerifyRewards gasFee).toNat ≤
      gasFee.toNat := by
  rw [calculateGasFeeCastorRewards, calculateGasFeeVerifyRewards, gasFeeShare_toNat,
    gasFeeShare_toNat]
  have hg := gasFee.toNat_lt
  change gasFee.toNat * 9 % 2 ^ 64 / 10 + gasFee.toNat * 1 % 2 ^ 64 / 10 ≤ gasFee.toNat
  omega

end Shares

/-! ## The credits of a block -/

section Credits

variable {Address : Type}

/-- The total of a list of balance credits. -/
def creditTotal (credits : List (Address × UInt64)) : ℕ := (credits.map fun c => c.2.toNat).sum

@[simp] theorem creditTotal_nil : creditTotal ([] : List (Address × UInt64)) = 0 := rfl

@[simp] theorem creditTotal_cons (c : Address × UInt64) (l : List (Address × UInt64)) :
    creditTotal (c :: l) = c.2.toNat + creditTotal l := by
  simp [creditTotal]

@[simp] theorem creditTotal_append (l₁ l₂ : List (Address × UInt64)) :
    creditTotal (l₁ ++ l₂) = creditTotal l₁ + creditTotal l₂ := by
  simp [creditTotal]

theorem creditTotal_map_const {β : Type} (l : List β) (f : β → Address) (v : UInt64) :
    creditTotal (l.map fun t => (f t, v)) = l.length * v.toNat := by
  induction l with
  | nil => simp
  | cons t l ih =>
    rw [List.map_cons, creditTotal_cons, ih, List.length_cons]
    ring

/-- The credits at the end of `stateProcessor.process`: the daemon and the user nodes when their
share is not zero, then the castor with its shares of the gas fee and of the reward. -/
def processRewardCredits (daemonNode userNode castor : Address) (height gasFee : UInt64) :
    List (Address × UInt64) :=
  let castorTotalRewards := calculateGasFeeCastorRewards gasFee + calculateCastorRewards height
  let deamonNodeRewards := daemonNodesRewards height
  let userNodesRewards := userNodesRewards height
  (if deamonNodeRewards ≠ 0 then [(daemonNode, deamonNodeRewards)] else []) ++
    (if userNodesRewards ≠ 0 then [(userNode, userNodesRewards)] else []) ++
    [(castor, castorTotalRewards)]

/-- A credit skipped when it is zero adds the same. -/
private theorem creditTotal_ite_ne_zero (a : Address) (v : UInt64) :
    creditTotal (if v ≠ 0 then [(a, v)] else []) = v.toNat := by
  split_ifs with hv
  · simp
  · simp [not_not.mp hv]

/-- What `process` credits, in `ℕ`: the castor's total does not wrap, its gas-fee share being
at most a tenth of `2 ^ 64`. -/
theorem creditTotal_processRewardCredits (daemonNode userNode castor : Address)
    (height gasFee : UInt64) :
    creditTotal (processRewardCredits daemonNode userNode castor height gasFee) =
      (daemonNodesRewards height).toNat + (userNodesRewards height).toNat +
        ((calculateGasFeeCastorRewards gasFee).toNat + (calculateCastorRewards height).toNat) := by
  have hfee : (calculateGasFeeCastorRewards gasFee).toNat < 2 ^ 61 := by
    rw [calculateGasFeeCastorRewards, gasFeeShare_toNat]
    omega
  have hcastor : (calculateCastorRewards height).toNat ≤ 62224000000 := by
    have := minerShares_le height
    have := minerNodesRewards_toNat_le height
    omega
  simp only [processRewardCredits, creditTotal_append, creditTotal_ite_ne_zero, creditTotal_cons,
    creditTotal_nil, Nat.add_zero]
  rw [Word64.toNat_add_of_lt (by omega)]

/-- The share checks of `VerifyRewardTransaction` against the block the transaction rewards: the
pack fee is the packing share, and the value of each target is the verifiers' total divided by
the number of targets, a division by zero when there is none. -/
def verifyRewardShares (height gasFee : UInt64) (p : ParsedReward) (value : UInt64) :
    Outcome Unit :=
  let rewardShare := CalculateCastRewardShare height gasFee
  if rewardShare.forRewardTxPacking ≠ p.packFee then .error "pack fee error: receive %v, expect %v"
  else if p.targets.length = 0 then .panic "runtime error: integer divide by zero"
  else if rewardShare.TotalForVerifier / UInt64.ofNat p.targets.length ≠ value then
    .error "invalid verify reward, value=%v"
  else .ok ()

theorem verifyRewardShares_ok {height gasFee value : UInt64} {p : ParsedReward}
    (h : verifyRewardShares height gasFee p value = .ok ()) :
    p.packFee = calculatePackedRewards height ∧ p.targets.length ≠ 0 ∧
      value = (CalculateCastRewardShare height gasFee).TotalForVerifier /
        UInt64.ofNat p.targets.length := by
  dsimp only [verifyRewardShares] at h
  split_ifs at h with hfee hzero hvalue
  exact ⟨(not_not.mp hfee).symm, hzero, (not_not.mp hvalue).symm⟩

/-- The verifiers' total does not wrap. -/
theorem totalForVerifier_toNat (height gasFee : UInt64) :
    (CalculateCastRewardShare height gasFee).TotalForVerifier.toNat =
      (calculateGasFeeVerifyRewards gasFee).toNat + (calculateVerifyRewards height).toNat := by
  have hfee : (calculateGasFeeVerifyRewards gasFee).toNat < 2 ^ 61 := by
    rw [calculateGasFeeVerifyRewards, gasFeeShare_toNat]
    omega
  have hverify : (calculateVerifyRewards height).toNat ≤ 62224000000 := by
    have := minerShares_le height
    have := minerNodesRewards_toNat_le height
    omega
  show (calculateGasFeeVerifyRewards gasFee + calculateVerifyRewards height).toNat = _
  exact Word64.toNat_add_of_lt (by omega)

/-- The fields of a block header the reward code reads. -/
structure RewardedHeader where
  height : UInt64
  gasFee : UInt64
  deriving DecidableEq, Repr

/-- `rewardExecutor.ParseTransaction` after `ParseRewardTransaction`, then `Transition`: the
rewarded block must exist and have no reward transaction recorded; each target is credited the
value and the proposer the pack fee, and the reward store records the transaction's hash under
the block's. -/
def executeReward (QueryBlockHeaderByHash : Hash → Option RewardedHeader)
    (BytesToAddress : List UInt8 → Address) (proposal : Address) (txHash : Hash) (value : UInt64)
    (p : ParsedReward) (rewarded : Hash → Option Hash) :
    Except String (List (Address × UInt64) × (Hash → Option Hash)) :=
  if (QueryBlockHeaderByHash p.blockHash).isNone then .error "block not exist：%v"
  else if (rewarded p.blockHash).isSome then .error "reward transaction already executed:%v"
  else .ok (p.targets.map (fun tid => (BytesToAddress tid, value)) ++ [(proposal, p.packFee)],
    Function.update rewarded p.blockHash (some txHash))

/-- A reward transaction on the chain: the castor of the block packing it, its hash, the value
of each target, and what `ParseRewardTransaction` read from it. -/
structure RewardTx (Address : Type) where
  proposal : Address
  hash : Hash
  value : UInt64
  parsed : ParsedReward

section Run

variable (QueryBlockHeaderByHash : Hash → Option RewardedHeader)
  (BytesToAddress : List UInt8 → Address)

/-- Reward transactions executed one after another; one that fails is dropped with the state it
found, and one that succeeds is kept with its credits. -/
def executeRewards :
    List (RewardTx Address) → (Hash → Option Hash) →
      List (RewardTx Address × List (Address × UInt64)) × (Hash → Option Hash)
  | [], rewarded => ([], rewarded)
  | tx :: txs, rewarded =>
    match executeReward QueryBlockHeaderByHash BytesToAddress tx.proposal tx.hash tx.value
        tx.parsed rewarded with
    | .ok (credits, rewarded') =>
      let run := executeRewards txs rewarded'
      ((tx, credits) :: run.1, run.2)
    | .error _ => executeRewards txs rewarded

variable {QueryBlockHeaderByHash BytesToAddress}

theorem executeReward_ok {proposal : Address} {txHash : Hash} {value : UInt64} {p : ParsedReward}
    {rewarded rewarded' : Hash → Option Hash} {credits : List (Address × UInt64)}
    (h : executeReward QueryBlockHeaderByHash BytesToAddress proposal txHash value p rewarded =
      .ok (credits, rewarded')) :
    rewarded p.blockHash = none ∧
      credits = p.targets.map (fun tid => (BytesToAddress tid, value)) ++ [(proposal, p.packFee)] ∧
      rewarded' = Function.update rewarded p.blockHash (some txHash) := by
  unfold executeReward at h
  split_ifs at h with hq hr
  cases h
  exact ⟨Option.not_isSome_iff_eq_none.mp hr, rfl, rfl⟩

/-- A success of the run is a success of one of its transactions, on the store it found. -/
theorem mem_executeRewards {txs : List (RewardTx Address)} {rewarded : Hash → Option Hash}
    {d : RewardTx Address × List (Address × UInt64)}
    (hd : d ∈ (executeRewards QueryBlockHeaderByHash BytesToAddress txs rewarded).1) :
    d.1 ∈ txs ∧ ∃ r r', executeReward QueryBlockHeaderByHash BytesToAddress d.1.proposal d.1.hash
      d.1.value d.1.parsed r = .ok (d.2, r') := by
  induction txs generalizing rewarded with
  | nil => cases hd
  | cons tx txs ih =>
    rw [executeRewards] at hd
    split at hd
    · next credits r' he =>
      rcases List.mem_cons.mp hd with rfl | hd
      · exact ⟨List.mem_cons_self, rewarded, r', he⟩
      · obtain ⟨hmem, hex⟩ := ih hd
        exact ⟨List.mem_cons_of_mem _ hmem, hex⟩
    · obtain ⟨hmem, hex⟩ := ih hd
      exact ⟨List.mem_cons_of_mem _ hmem, hex⟩

/-- The run rewards a block at most once, and not at all once the store records it. -/
theorem executeRewards_once (b : Hash) (txs : List (RewardTx Address))
    (rewarded : Hash → Option Hash) :
    ((executeRewards QueryBlockHeaderByHash BytesToAddress txs rewarded).1.filter
        fun d => d.1.parsed.blockHash = b).length ≤ if rewarded b = none then 1 else 0 := by
  induction txs generalizing rewarded with
  | nil => simp [executeRewards]
  | cons tx txs ih =>
    rw [executeRewards]
    split
    · next credits r' he =>
      obtain ⟨hnone, -, rfl⟩ := executeReward_ok he
      have hrest := ih (Function.update rewarded tx.parsed.blockHash (some tx.hash))
      by_cases hb : tx.parsed.blockHash = b
      · -- the store now records the block, so the rest of the run does not reward it
        subst hb
        rw [Function.update_self, if_neg (Option.some_ne_none _), Nat.le_zero] at hrest
        rw [List.filter_cons_of_pos (by simp), List.length_cons, hrest, if_pos hnone]
      · rw [List.filter_cons_of_neg (by simpa using hb)]
        rwa [Function.update_of_ne (Ne.symm hb)] at hrest
    · exact ih rewarded

/-- A reward transaction that passed the share checks of its block credits at most the
verifiers' total and the packing share: each of its `n` targets gets the total divided by `n`.
A Go slice has fewer than `2 ^ 63` elements, so `uint64(len(targetIds))` is exact. -/
theorem executeReward_credits_le {height gasFee : UInt64} {proposal : Address} {txHash : Hash}
    {value : UInt64} {p : ParsedReward} {rewarded rewarded' : Hash → Option Hash}
    {credits : List (Address × UInt64)}
    (hv : verifyRewardShares height gasFee p value = .ok ()) (hlen : p.targets.length < 2 ^ 63)
    (he : executeReward QueryBlockHeaderByHash BytesToAddress proposal txHash value p rewarded =
      .ok (credits, rewarded')) :
    creditTotal credits ≤ (calculateGasFeeVerifyRewards gasFee).toNat +
      (calculateVerifyRewards height).toNat + (calculatePackedRewards height).toNat := by
  obtain ⟨hfee, -, rfl⟩ := verifyRewardShares_ok hv
  obtain ⟨-, rfl, -⟩ := executeReward_ok he
  have hvalue : ((CalculateCastRewardShare height gasFee).TotalForVerifier /
      UInt64.ofNat p.targets.length).toNat =
        (CalculateCastRewardShare height gasFee).TotalForVerifier.toNat / p.targets.length := by
    rw [UInt64.toNat_div, UInt64.toNat_ofNat_of_lt' (by unfold UInt64.size; omega)]
  have hsplit := Nat.mul_div_le (CalculateCastRewardShare height gasFee).TotalForVerifier.toNat
    p.targets.length
  rw [creditTotal_append, creditTotal_map_const, creditTotal_cons, creditTotal_nil, hvalue, hfee,
    ← totalForVerifier_toNat]
  dsimp only
  omega

/-- On account of a block the store does not record yet, a run credits at most what one
successful transaction for the block may. -/
theorem executeRewards_credits_le (b : Hash) (bound : ℕ) {txs : List (RewardTx Address)}
    {rewarded : Hash → Option Hash} (hnone : rewarded b = none)
    (hbound : ∀ tx ∈ txs, tx.parsed.blockHash = b → ∀ r credits r',
      executeReward QueryBlockHeaderByHash BytesToAddress tx.proposal tx.hash tx.value tx.parsed r =
        .ok (credits, r') → creditTotal credits ≤ bound) :
    (((executeRewards QueryBlockHeaderByHash BytesToAddress txs rewarded).1.filter
        fun d => d.1.parsed.blockHash = b).map fun d => creditTotal d.2).sum ≤ bound := by
  set done := (executeRewards QueryBlockHeaderByHash BytesToAddress txs rewarded).1.filter
    fun d => d.1.parsed.blockHash = b
  have hone : done.length ≤ 1 := by
    simpa [hnone] using executeRewards_once b txs rewarded
  have heach : ∀ c ∈ done.map fun d => creditTotal d.2, c ≤ bound := by
    intro c hc
    obtain ⟨d, hd, rfl⟩ := List.mem_map.mp hc
    obtain ⟨hmem, hb⟩ := List.mem_filter.mp hd
    obtain ⟨htx, r, r', he⟩ := mem_executeRewards hmem
    exact hbound d.1 htx (by simpa using hb) r d.2 r' he
  calc (done.map fun d => creditTotal d.2).sum
      ≤ (done.map fun d => creditTotal d.2).length • bound := List.sum_le_card_nsmul _ _ heach
    _ ≤ 1 * bound := by
        rw [List.length_map, smul_eq_mul]
        exact Nat.mul_le_mul_right bound hone
    _ = bound := Nat.one_mul bound

end Run

/-- What one block emits.  For every height and fee the three splits keep within what they
split; and on account of a block the reward store does not record yet, a run of reward
transactions executes at most one for it, and `process` and the run, its transactions having
passed `VerifyRewardTransaction` against the blocks they name, credit at most the block's reward
and its gas fee. -/
theorem block_emission_bounded (QueryBlockHeaderByHash : Hash → Option RewardedHeader)
    (BytesToAddress : List UInt8 → Address) (daemonNode userNode castor : Address) (b : Hash)
    {hd : RewardedHeader} (hb : QueryBlockHeaderByHash b = some hd) (txs : List (RewardTx Address))
    {rewarded : Hash → Option Hash} (hnone : rewarded b = none)
    (hverified : ∀ tx ∈ txs, ∀ hd', QueryBlockHeaderByHash tx.parsed.blockHash = some hd' →
      verifyRewardShares hd'.height hd'.gasFee tx.parsed tx.value = .ok ())
    (hlen : ∀ tx ∈ txs, tx.parsed.targets.length < 2 ^ 63) :
    (calculateGasFeeCastorRewards hd.gasFee).toNat +
        (calculateGasFeeVerifyRewards hd.gasFee).toNat ≤ hd.gasFee.toNat ∧
      (calculateCastorRewards hd.height).toNat + (calculatePackedRewards hd.height).toNat +
        (calculateVerifyRewards hd.height).toNat ≤ (minerNodesRewards hd.height).toNat ∧
      (daemonNodesRewards hd.height).toNat + (userNodesRewards hd.height).toNat +
        (minerNodesRewards hd.height).toNat ≤ (blockRewards hd.height).toNat ∧
      ((executeRewards QueryBlockHeaderByHash BytesToAddress txs rewarded).1.filter
        fun d => d.1.parsed.blockHash = b).length ≤ 1 ∧
      creditTotal (processRewardCredits daemonNode userNode castor hd.height hd.gasFee) +
          (((executeRewards QueryBlockHeaderByHash BytesToAddress txs rewarded).1.filter
            fun d => d.1.parsed.blockHash = b).map fun d => creditTotal d.2).sum ≤
        (blockRewards hd.height).toNat + hd.gasFee.toNat := by
  have hfee := gasFeeShares_le hd.gasFee
  have hminer := minerShares_le hd.height
  have hnodes := nodeShares_le hd.height
  -- each transaction for the block passed the checks against its header
  have hrun := @executeRewards_credits_le Address QueryBlockHeaderByHash BytesToAddress b
    ((calculateGasFeeVerifyRewards hd.gasFee).toNat + (calculateVerifyRewards hd.height).toNat +
      (calculatePackedRewards hd.height).toNat) txs rewarded hnone
    (fun tx htx htb r credits r' he =>
      executeReward_credits_le (hverified tx htx hd (htb ▸ hb)) (hlen tx htx) he)
  have honce := @executeRewards_once Address QueryBlockHeaderByHash BytesToAddress b txs rewarded
  rw [if_pos hnone] at honce
  refine ⟨hfee, hminer, hnodes, honce, ?_⟩
  rw [creditTotal_processRewardCredits]
  omega

/-- A block at height one with a fee of 100, rewarded by one transaction with two targets. -/
theorem block_emission_bounded_two_targets :
    let tx : RewardTx ℕ := ⟨3, BytesToHash [2], (CalculateCastRewardShare 1 100).TotalForVerifier / 2,
      ⟨BytesToHash [9], [[1], [2]], BytesToHash [1], calculatePackedRewards 1⟩⟩
    creditTotal (processRewardCredits 0 1 2 1 100) +
        (((executeRewards (fun _ => some ⟨1, 100⟩) (fun _ => 4) [tx] fun _ => none).1.filter
          fun d => d.1.parsed.blockHash = BytesToHash [1]).map fun d => creditTotal d.2).sum ≤
      (blockRewards 1).toNat + 100 := by
  intro tx
  refine (block_emission_bounded (fun _ => some ⟨1, 100⟩) (fun _ => 4) 0 1 2 (BytesToHash [1]) rfl
    [tx] rfl ?_ ?_).2.2.2.2
  · intro t ht hd' hq
    rw [List.mem_singleton] at ht
    subst ht
    cases hq
    decide
  · intro t ht
    rw [List.mem_singleton] at ht
    subst ht
    decide

end Credits

end Zvchain
