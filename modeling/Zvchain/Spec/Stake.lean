import Zvchain.Spec.Helpers
import Zvchain.Lib.Word64

/-!
# What the stake operations do to the state

For each stake operation, the effect of a run that returns, as field equations between the state
`s` it starts from and the state `s'` it leaves, with the guards it passed; and the condition
under which it panics.  The effects are proved once, by `mvcgen`, from specifications whose
precondition pins the initial state (`fun s => ⌜s = s0⌝`): `mvcgen` instantiates `s0` with the
state at the call, so a caller composes them without unfolding the callee.  Everything later
about these operations reads the effect structures and never unfolds a procedure again.
-/

set_option mvcgen.warning false

namespace Zvchain

open Std.Do

variable {Address : Type} [DecidableEq Address]

/-! ## Stake add -/

/-- `checkStakeAdd` only reads, and fails with an error, never a panic; a verifier accepts a
stake only from itself. -/
theorem checkStakeAdd_spec (env : MinerEnv Address) (b : IdentityOp) (op : StakeAddOp Address)
    (tm : Option (Miner Address)) (s0 : State Address) :
    ⦃fun s => ⌜s = s0⌝⦄ b.checkStakeAdd env op tm
    ⦃post⟨fun _ s => ⌜s = s0 ∧ (b = .verifyMiner → op.addSource = op.addTarget)⌝,
      fun e s => ⌜s = s0 ∧ ∃ m rs, e = .err m rs⌝⟩⦄ := by
  cases b <;> mvcgen [IdentityOp.checkStakeAdd] <;> simp_all

/-- The record a stake add writes: `stakeAddedMiner`, activated when it was not active and now
qualifies. -/
def activatedMiner (op : StakeAddOp Address) (tm : Option (Miner Address)) : Miner Address :=
  let m := stakeAddedMiner op tm
  if !m.IsActive ∧ checkCanActivate m then m.UpdateStatus .active op.height else m

/-- The staked detail of the source in the target account, the key a stake add writes. -/
def StakeAddOp.detailKey (op : StakeAddOp Address) : DetailKey Address :=
  ⟨op.addSource, op.minerType, .staked⟩

/-- What a stake add that returns did, from `s` to `s'`, for the target record `tm` read
before. -/
structure StakeAdded (op : StakeAddOp Address) (tm : Option (Miner Address))
    (s s' : State Address) : Prop where
  notFrozen : tm.any (·.IsFrozen) = false
  stakeNoOverflow : tm.any (fun m => m.stake + op.value < m.stake) = false
  detailNoOverflow :
    (s.detail op.addTarget op.detailKey).any (fun d => d.value + op.value < d.value) = false
  covered : needTransfer op.value.toNat → (op.value.toNat : ℤ) ≤ s.balance op.addSource
  balance : s'.balance = if needTransfer op.value.toNat then
    Function.update s.balance op.addSource (s.balance op.addSource - op.value.toNat)
    else s.balance
  miner : s'.miner = (s.putMiner (activatedMiner op tm)).miner
  totalStake : s'.totalStake = if IsProposalRole op.minerType then
      (if (stakeAddedMiner op tm).IsActive then op.value + s.totalStake
       else if checkCanActivate (stakeAddedMiner op tm) then
         (stakeAddedMiner op tm).stake + s.totalStake
       else s.totalStake)
    else s.totalStake
  pool : s'.pool = if !(stakeAddedMiner op tm).IsActive ∧ checkCanActivate (stakeAddedMiner op tm)
    then (s.putPool op.minerType op.addTarget true).pool else s.pool
  detail : s'.detail = (s.putDetail op.addTarget op.detailKey
    (some (accumulateDetail (s.detail op.addTarget op.detailKey) op.value op.height))).detail
  tickets : s'.tickets = s.tickets
  vote : s'.vote = s.vote

/-- When a stake add panics: the proposal total stake overflows, on the value of an active
proposer or on the whole stake of one it activates. -/
def StakeAddOverflows (op : StakeAddOp Address) (tm : Option (Miner Address))
    (s : State Address) : Prop :=
  IsProposalRole op.minerType ∧
    if (stakeAddedMiner op tm).IsActive then op.value + s.totalStake < s.totalStake
    else checkCanActivate (stakeAddedMiner op tm) ∧
      (stakeAddedMiner op tm).stake + s.totalStake < s.totalStake

theorem processStakeAdd_spec (op : StakeAddOp Address) (tm : Option (Miner Address))
    (cu : Miner Address → UInt64 → Bool) (s0 : State Address) :
    ⦃fun s => ⌜s = s0⌝⦄ processStakeAdd op tm cu
    ⦃post⟨fun _ s => ⌜StakeAdded op tm s0 s⌝,
      fun e _ => ⌜∀ msg, e = .panic msg → StakeAddOverflows op tm s0⌝⟩⦄ := by
  mvcgen [processStakeAdd, reduceBalance, canTransfer, addProposalTotalStake, addToPool]
  all_goals (subst_vars; first
    | (constructor <;> simp_all +zetaDelta [activatedMiner, needTransfer, StakeAddOp.detailKey])
    | simp_all +zetaDelta [StakeAddOverflows])

/-- The effect of `stakeAddOp.Transition`: a result without error comes with the effect of
`processStakeAdd` on the stored target, and with the verifier's own-stake check passed. -/
theorem stakeAddTransition_spec (env : MinerEnv Address) (op : StakeAddOp Address)
    (s0 : State Address) :
    ⦃fun s => ⌜s = s0⌝⦄ op.Transition env
    ⦃post⟨fun r s => ⌜r.err = none →
        StakeAdded op (s0.miner op.addTarget op.minerType) s0 s ∧
        (op.minerType = .verify → op.addSource = op.addTarget)⌝,
      fun e _ => ⌜∀ msg, e = .panic msg →
        StakeAddOverflows op (s0.miner op.addTarget op.minerType) s0⌝⟩⦄ := by
  have hcheck := @checkStakeAdd_spec Address _
  have hprocess := @processStakeAdd_spec Address _
  mvcgen [StakeAddOp.Transition, toResult, hcheck, hprocess]
  all_goals clear hcheck hprocess
  all_goals simp_all +zetaDelta [newResult, geneBaseIdentityOp]

/-! ## Stake reduce -/

/-- `checkCanReduce` only reads, and fails with an error. -/
theorem checkCanReduce_spec (env : MinerEnv Address) (op : StakeReduceOp Address)
    (typ : MinerType) (m : Miner Address) (s0 : State Address) :
    ⦃fun s => ⌜s = s0⌝⦄ checkCanReduce env op typ m
    ⦃post⟨fun _ s => ⌜s = s0 ∧ m.IsFrozen = false ∧
        ((!checkLowerBound m) = true → IsVerifyRole typ = true → m.IsActive = false)⌝,
      fun e s => ⌜s = s0 ∧ ∃ msg rs, e = .err msg rs⌝⟩⦄ := by
  mvcgen [checkCanReduce] <;> simp_all

/-- The record with the reduced stake. -/
def reducedMiner (op : StakeReduceOp Address) (m : Miner Address) : Miner Address :=
  { m with stake := m.stake - op.value }

/-- The record a stake reduce writes: an active proposer that falls below the lower bound goes
back to prepare. -/
def stakeReducedMiner (op : StakeReduceOp Address) (m : Miner Address) : Miner Address :=
  if m.IsActive ∧ IsProposalRole op.minerType then
    if !checkLowerBound (reducedMiner op m) then (reducedMiner op m).UpdateStatus .prepare op.height
    else reducedMiner op m
  else reducedMiner op m

omit [DecidableEq Address] in
/-- A stake reduce that does not concern an active proposer only lowers the stake. -/
theorem stakeReducedMiner_of_not_active_proposer (op : StakeReduceOp Address) (m : Miner Address)
    (h : m.status = .active → IsProposalRole op.minerType = false) :
    stakeReducedMiner op m = reducedMiner op m := by
  unfold stakeReducedMiner Miner.IsActive
  split_ifs <;> simp_all

omit [DecidableEq Address] in
/-- A stake reduce of an active proposer takes it back to prepare below the lower bound. -/
theorem stakeReducedMiner_of_active_proposer (op : StakeReduceOp Address) (m : Miner Address)
    (hA : m.status = .active) (hP : IsProposalRole op.minerType = true) :
    stakeReducedMiner op m = if !checkLowerBound (reducedMiner op m) then
      (reducedMiner op m).UpdateStatus .prepare op.height else reducedMiner op m := by
  simp [stakeReducedMiner, Miner.IsActive, hA, hP]

/-- The detail keys of a stake reduce: the source's staked and frozen details in the target
account. -/
def StakeReduceOp.stakedKey (op : StakeReduceOp Address) : DetailKey Address :=
  ⟨op.cancelSource, op.minerType, .staked⟩

def StakeReduceOp.frozenKey (op : StakeReduceOp Address) : DetailKey Address :=
  ⟨op.cancelSource, op.minerType, .stakeFrozen⟩

/-- The staked detail after a reduce: removed when it falls to zero. -/
def reducedStakedDetail (op : StakeReduceOp Address) (d : StakeDetail) : Option StakeDetail :=
  if d.value - op.value = 0 then none
  else some { d with value := d.value - op.value, height := op.height }

/-- What a stake reduce of the stored miner `m` that returns did. -/
structure StakeReduced (op : StakeReduceOp Address) (m : Miner Address) (s s' : State Address) :
    Prop where
  enough : ¬ m.stake < op.value
  notFrozen : m.IsFrozen = false
  verifyBound : (!checkLowerBound (reducedMiner op m)) = true → IsVerifyRole op.minerType = true →
    m.IsActive = false
  stakedDetail : (s.detail op.cancelTarget op.stakedKey).isSome
  detailCovers : ∀ d, s.detail op.cancelTarget op.stakedKey = some d →
    ¬ d.value < op.value ∧ ¬ d.value > m.stake
  balance : s'.balance = s.balance
  miner : s'.miner = (s.putMiner (stakeReducedMiner op m)).miner
  totalStake : s'.totalStake =
    if m.IsActive ∧ IsProposalRole op.minerType then
      (if !checkLowerBound (reducedMiner op m) then s.totalStake - m.stake
       else s.totalStake - op.value)
    else s.totalStake
  pool : s'.pool =
    if m.IsActive ∧ IsProposalRole op.minerType then
      (if !checkLowerBound (reducedMiner op m) then
        (s.putPool op.minerType op.cancelTarget false).pool
       else s.pool)
    else s.pool
  detail : s'.detail = ((s.putDetail op.cancelTarget op.stakedKey
      ((s.detail op.cancelTarget op.stakedKey).bind (reducedStakedDetail op))).putDetail
    op.cancelTarget op.frozenKey
    (some (accumulateDetail (s.detail op.cancelTarget op.frozenKey) op.value op.height))).detail
  tickets : s'.tickets = s.tickets
  vote : s'.vote = s.vote

/-- When a stake reduce panics: the total stake does not cover what leaves it, or the staked
detail exceeds the miner's stake. -/
def StakeReducePanics (op : StakeReduceOp Address) (m : Miner Address) (s : State Address) :
    Prop :=
  (m.IsActive ∧ IsProposalRole op.minerType ∧
    (if !checkLowerBound (reducedMiner op m) then s.totalStake < m.stake
     else s.totalStake < op.value)) ∨
  ∃ d, s.detail op.cancelTarget op.stakedKey = some d ∧ d.value > m.stake

theorem processStakeReduce_spec (env : MinerEnv Address) (op : StakeReduceOp Address)
    (tm : Option (Miner Address)) (s0 : State Address) :
    ⦃fun s => ⌜s = s0⌝⦄ processStakeReduce env op tm
    ⦃post⟨fun _ s => ⌜∃ m, tm = some m ∧ StakeReduced op m s0 s⌝,
      fun e _ => ⌜∀ msg, e = .panic msg → ∃ m, tm = some m ∧ StakeReducePanics op m s0⌝⟩⦄ := by
  cases tm with
  | none => mvcgen [processStakeReduce]; simp_all
  | some m =>
    have hcheck := @checkCanReduce_spec Address _
    mvcgen [processStakeReduce, hcheck, removeFromPool, subProposalTotalStake]
    all_goals clear hcheck
    all_goals (subst_vars; first
      | (refine ⟨m, rfl, ?_⟩
         constructor <;> simp_all +zetaDelta [stakeReducedMiner_of_not_active_proposer,
          stakeReducedMiner_of_active_proposer, reducedMiner, reducedStakedDetail,
          StakeReduceOp.stakedKey, StakeReduceOp.frozenKey, Miner.IsActive, Miner.IsFrozen])
      | simp_all +zetaDelta [StakeReducePanics, reducedMiner, StakeReduceOp.stakedKey,
          Miner.IsActive, Miner.IsFrozen])

/-- The effect of `stakeReduceOp.Transition`. -/
theorem stakeReduceTransition_spec (env : MinerEnv Address) (op : StakeReduceOp Address)
    (s0 : State Address) :
    ⦃fun s => ⌜s = s0⌝⦄ op.Transition env
    ⦃post⟨fun r s => ⌜r.err = none →
        ∃ m, s0.miner op.cancelTarget op.minerType = some m ∧ StakeReduced op m s0 s⌝,
      fun e _ => ⌜∀ msg, e = .panic msg →
        ∃ m, s0.miner op.cancelTarget op.minerType = some m ∧ StakeReducePanics op m s0⌝⟩⦄ := by
  have hprocess := @processStakeReduce_spec Address _
  mvcgen [StakeReduceOp.Transition, toResult, hprocess]
  all_goals clear hprocess
  all_goals simp_all [newResult]

/-! ## Abort -/

/-- What an abort of the stored miner `m` that returns did. -/
structure MinerAborted (op : MinerAbortOp Address) (m : Miner Address) (s s' : State Address) :
    Prop where
  notPrepare : m.IsPrepare = false
  balance : s'.balance = s.balance
  miner : s'.miner = (s.putMiner (m.UpdateStatus .prepare op.height)).miner
  totalStake : s'.totalStake =
    if m.IsActive then (if IsProposalRole op.minerType then s.totalStake - m.stake else s.totalStake)
    else s.totalStake
  pool : s'.pool = if m.IsActive then (s.putPool op.minerType op.addr false).pool else s.pool
  detail : s'.detail = s.detail
  tickets : s'.tickets = s.tickets
  vote : s'.vote = s.vote

/-- When an abort panics: the total stake does not cover the stake of the active proposer that
leaves. -/
def MinerAbortPanics (op : MinerAbortOp Address) (m : Miner Address) (s : State Address) : Prop :=
  m.IsActive ∧ IsProposalRole op.minerType ∧ s.totalStake < m.stake

theorem processMinerAbort_spec (b : IdentityOp) (op : MinerAbortOp Address)
    (tm : Option (Miner Address)) (s0 : State Address) :
    ⦃fun s => ⌜s = s0⌝⦄ b.processMinerAbort op tm
    ⦃post⟨fun _ s => ⌜∃ m, tm = some m ∧ MinerAborted op m s0 s⌝,
      fun e _ => ⌜∀ msg, e = .panic msg → ∃ m, tm = some m ∧ MinerAbortPanics op m s0⌝⟩⦄ := by
  cases b <;> cases tm <;>
    mvcgen [IdentityOp.processMinerAbort, checkStakeAbort, removeFromPool] <;>
    first
    | exact ⟨_, rfl, by constructor <;> simp_all +zetaDelta [Miner.IsActive, Miner.IsPrepare]⟩
    | simp_all +zetaDelta [MinerAbortPanics, Miner.IsActive]

/-- The effect of `minerAbortOp.Transition`. -/
theorem minerAbortTransition_spec (op : MinerAbortOp Address) (s0 : State Address) :
    ⦃fun s => ⌜s = s0⌝⦄ op.Transition
    ⦃post⟨fun r s => ⌜r.err = none →
        ∃ m, s0.miner op.addr op.minerType = some m ∧ MinerAborted op m s0 s⌝,
      fun e _ => ⌜∀ msg, e = .panic msg →
        ∃ m, s0.miner op.addr op.minerType = some m ∧ MinerAbortPanics op m s0⌝⟩⦄ := by
  have hprocess := @processMinerAbort_spec Address _
  mvcgen [MinerAbortOp.Transition, toResult, hprocess]
  all_goals clear hprocess
  all_goals simp_all [newResult]

/-! ## Refund -/

/-- The source's frozen detail in the target account, the key a refund reads. -/
def StakeRefundOp.frozenKey (op : StakeRefundOp Address) : DetailKey Address :=
  ⟨op.refundSource, op.minerType, .stakeFrozen⟩

/-- What a refund that returns without error did: the frozen detail is gone, and its value is
back in the source's balance. -/
structure StakeRefunded (op : StakeRefundOp Address) (s s' : State Address) : Prop where
  frozenDetail : (s.detail op.refundTarget op.frozenKey).isSome
  balance : s'.balance = (s.putBalance op.refundSource (s.balance op.refundSource +
    (((s.detail op.refundTarget op.frozenKey).map StakeDetail.value).getD 0).toNat)).balance
  miner : s'.miner = s.miner
  totalStake : s'.totalStake = s.totalStake
  pool : s'.pool = s.pool
  detail : s'.detail = (s.putDetail op.refundTarget op.frozenKey none).detail
  tickets : s'.tickets = s.tickets
  vote : s'.vote = s.vote

/-- The effect of `stakeRefundOp.Transition`; it never panics, and a result with an error
leaves the state as it was. -/
theorem stakeRefundTransition_spec (env : MinerEnv Address) (op : StakeRefundOp Address)
    (s0 : State Address) :
    ⦃fun s => ⌜s = s0⌝⦄ op.Transition env
    ⦃post⟨fun r s => ⌜(r.err = none → StakeRefunded op s0 s) ∧ (r.err ≠ none → s = s0)⌝,
      fun _ _ => ⌜False⌝⟩⦄ := by
  mvcgen [StakeRefundOp.Transition]
  all_goals
    subst_vars
    refine ⟨fun _ => ?_, by simp [newResult]⟩
    constructor <;> simp_all +zetaDelta [StakeRefundOp.frozenKey]

/-! ## Freeze -/

/-- What a freeze of the stored verifier `m` that returns without error did. -/
structure MinerFreezed (op : MinerFreezeOp Address) (m : Miner Address) (s s' : State Address) :
    Prop where
  notFrozen : m.IsFrozen = false
  balance : s'.balance = s.balance
  miner : s'.miner = (s.putMiner (m.UpdateStatus .frozen op.height)).miner
  totalStake : s'.totalStake = s.totalStake
  pool : s'.pool = if m.IsActive then (s.putPool .verify op.addr false).pool else s.pool
  detail : s'.detail = s.detail
  tickets : s'.tickets = s.tickets
  vote : s'.vote = s.vote

/-- The effect of `minerFreezeOp.Transition`; it never panics, and a result with an error leaves
the state as it was. -/
theorem minerFreezeTransition_spec (op : MinerFreezeOp Address) (s0 : State Address) :
    ⦃fun s => ⌜s = s0⌝⦄ op.Transition
    ⦃post⟨fun r s => ⌜(r.err = none →
        ∃ m, s0.miner op.addr .verify = some m ∧ MinerFreezed op m s0 s) ∧
        (r.err ≠ none → s = s0)⌝,
      fun _ _ => ⌜False⌝⟩⦄ := by
  mvcgen [MinerFreezeOp.Transition, removeFromPool]
  all_goals (subst_vars; first
    | (refine ⟨fun _ => ⟨_, by assumption, ?_⟩, by simp [newResult]⟩
       constructor <;> simp_all +zetaDelta [Miner.IsActive])
    | simp)

/-! ## Penalty of one target -/

section Penalty

variable [Zero Address]

/-- The keys the penalty of `addr` touches in its own account: the punishment detail, and its own
staked and frozen verifier details. -/
def punishmentKey : DetailKey Address := ⟨0, .verify, .stakePunishment⟩

def normalStakeKey (addr : Address) : DetailKey Address := ⟨addr, .verify, .staked⟩

def penaltyFrozenKey (addr : Address) : DetailKey Address := ⟨addr, .verify, .stakeFrozen⟩

/-- The details of the target's account after its penalty: the value is added to the punishment
detail and taken off the staked detail, and what the staked detail does not cover off the frozen
one. -/
def penalizedDetails (value height : UInt64) (addr : Address)
    (ds : DetailKey Address → Option StakeDetail) : DetailKey Address → Option StakeDetail :=
  let ds := Function.update ds punishmentKey
    (some (accumulateDetail (ds punishmentKey) value height))
  match ds (normalStakeKey addr) with
  | none => ds
  | some nd =>
    if nd.value > value then
      Function.update ds (normalStakeKey addr)
        (some { nd with value := nd.value - value, height := height })
    else
      let ds := Function.update ds (normalStakeKey addr) none
      if value - nd.value > 0 then
        match ds (penaltyFrozenKey addr) with
        | none => ds
        | some fd => Function.update ds (penaltyFrozenKey addr)
            (some { fd with value := fd.value - (value - nd.value), height := height })
      else ds

/-- What the penalty of the stored verifier `m` at `addr` that returns did. -/
structure TargetPenalized (value height : UInt64) (addr : Address) (m : Miner Address)
    (s s' : State Address) : Prop where
  covered : ¬ m.stake < value
  stakedSome : (s.detail addr (normalStakeKey addr)).isSome
  frozenCovers : ∀ nd, s.detail addr (normalStakeKey addr) = some nd → ¬ nd.value > value →
    0 < value - nd.value →
    (s.detail addr (penaltyFrozenKey addr)).any (fun fd => !(fd.value < value - nd.value)) = true
  balance : s'.balance = s.balance
  miner : s'.miner =
    (s.putMiner ({ m with stake := m.stake - value }.UpdateStatus .frozen height)).miner
  totalStake : s'.totalStake = s.totalStake
  pool : s'.pool = if m.IsActive then (s.putPool .verify addr false).pool else s.pool
  detail : s'.detail = Function.update s.detail addr (penalizedDetails value height addr (s.detail addr))
  tickets : s'.tickets = s.tickets
  vote : s'.vote = s.vote

/-- The panics of the penalty of the stored verifier `m` at `addr`, each with its message. -/
def PenalizeTargetPanics (value : UInt64) (addr : Address) (m : Miner Address) (msg : String)
    (s : State Address) : Prop :=
  (msg = "stake less than punish value:%v %v of %v" ∧ m.stake < value) ∨
  (msg = "penalty can't find detail of the target:%v" ∧ ¬ m.stake < value ∧
    s.detail addr (normalStakeKey addr) = none) ∨
  (msg = "penalty can't find frozen detail of target:%v" ∧ ¬ m.stake < value ∧
    ∃ nd, s.detail addr (normalStakeKey addr) = some nd ∧ ¬ nd.value > value ∧
      s.detail addr (penaltyFrozenKey addr) = none) ∨
  (msg = "frozen detail value less than remain punish value %v %v %v" ∧ ¬ m.stake < value ∧
    ∃ nd fd, s.detail addr (normalStakeKey addr) = some nd ∧ ¬ nd.value > value ∧
      s.detail addr (penaltyFrozenKey addr) = some fd ∧ fd.value < value - nd.value)

theorem penalizeTarget_spec (value height : UInt64) (addr : Address) (s0 : State Address) :
    ⦃fun s => ⌜s = s0⌝⦄ penalizeTarget value height addr
    ⦃post⟨fun _ s => ⌜∃ m, s0.miner addr .verify = some m ∧
        TargetPenalized value height addr m s0 s⌝,
      fun e s => ⌜(∀ msg, e = .panic msg → ∃ m, s0.miner addr .verify = some m ∧
        PenalizeTargetPanics value addr m msg s0) ∧
        (∀ msg rs, e = .err msg rs → s = s0 ∧
          ∀ m, s0.miner addr .verify = some m → IsVerifyRole m.type = false)⌝⟩⦄ := by
  mvcgen [penalizeTarget, removeFromPool]
  all_goals (subst_vars; first
    | exact ⟨_, by assumption, by
        constructor <;> simp_all +zetaDelta [penalizedDetails, punishmentKey, normalStakeKey,
          penaltyFrozenKey, Miner.IsActive, Word64.lt_eq_false_of_le]⟩
    | simp_all +zetaDelta [PenalizeTargetPanics, normalStakeKey,
        penaltyFrozenKey, Option.eq_none_iff_forall_ne_some])

end Penalty

end Zvchain
