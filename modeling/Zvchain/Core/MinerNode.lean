import Zvchain.Core.MinerBase

/-!
# Miner identities and what each does with an operation (`core/miner_node.go`)

`geneBaseIdentityOp` picks, from the target miner's identity, the object whose methods process an
operation.  Each method of `baseIdentityOp` becomes a function on `IdentityOp` that follows
`BaseMiner` except where the identity overrides it.  `UnSupportMiner` is left out: it answers
identity bytes outside the four constants, which no write ever stores.

The operation records of `core/miner_operation.go` come first, with their parsed fields, and so
do the two procedures of that file and of `core/miner_base.go` that the identity methods call:
`reduceTicketsOp.Transition` and `processVote`.
-/

namespace Zvchain

variable {Address : Type}

/-! ## Operation records -/

/-- `stakeAddOp`. -/
structure StakeAddOp (Address : Type) where
  minerPks : MinerPks
  value : UInt64
  addSource : Address
  addTarget : Address
  minerType : MinerType
  height : UInt64

/-- `minerAbortOp`. -/
structure MinerAbortOp (Address : Type) where
  addr : Address
  minerType : MinerType
  height : UInt64

/-- `stakeReduceOp`. -/
structure StakeReduceOp (Address : Type) where
  cancelTarget : Address
  cancelSource : Address
  value : UInt64
  minerType : MinerType
  height : UInt64

/-- `voteMinerPoolOp`. -/
structure VoteMinerPoolOp (Address : Type) where
  source : Address
  targetAddr : Address
  height : UInt64

/-- `applyGuardMinerOp`. -/
structure ApplyGuardMinerOp (Address : Type) where
  targetAddr : Address
  height : UInt64

/-- `reduceTicketsOp`. -/
structure ReduceTicketsOp (Address : Type) where
  target : Address
  height : UInt64

/-- `changeFundGuardMode`. -/
structure ChangeFundGuardMode (Address : Type) where
  source : Address
  mode : FundModeType
  height : UInt64

/-- What the miner code asks outside the account state: the stake platform address in force
(`StakePlatformAddr()`, read from a contract after `ZIP006`) and the groups living at a height,
each by its member addresses (`GroupManagerImpl.GetLivedGroupsAt`). -/
structure MinerEnv (Address : Type) where
  stakePlatformAddr : Address
  livedGroupsAt : UInt64 → List (List Address)

/-- `result`, as far as the miner operations fill it. -/
structure Result where
  transitionStatus : ReceiptStatus
  err : Option String
  deriving DecidableEq, Repr

/-- `newResult()`. -/
def newResult : Result := { transitionStatus := .rsSuccess, err := none }

/-- A `Transition` runs a body that returns `(error, ReceiptStatus)`.  A returned error goes into
the result, after `wrap` (the text of the `fmt.Errorf` that the operation wraps it in, up to its
final `%v`); a panic goes through. -/
def toResult (wrap : String) (body : Proc Address Unit) : Proc Address Result :=
  tryCatch (do body; return newResult) fun
    | .err e rs => return { transitionStatus := rs, err := some (wrap ++ e) }
    | .panic m => throw (.panic m)

/-- `MinerJoinedLivedGroupCountFilter(maxCount, height)(addr)`: the address is a member of fewer
than `maxCount` living groups. -/
def MinerJoinedLivedGroupCountFilter (env : MinerEnv Address) (maxCount : ℕ) (height : UInt64)
    (addr : Address) [DecidableEq Address] : Bool :=
  ((env.livedGroupsAt height).countP fun g => g.contains addr) < maxCount

/-! ## Identities -/

/-- The implementations of `baseIdentityOp`. -/
inductive IdentityOp where
  | verifyMiner
  | normalProposalMiner
  | guardProposalMiner
  | minerPoolProposalMiner
  | invalidProposalMiner
  deriving DecidableEq, Repr

/-- `geneBaseIdentityOp`. -/
def geneBaseIdentityOp (opType : MinerType) (targetMiner : Option (Miner Address)) : IdentityOp :=
  if opType = .verify then .verifyMiner
  else match targetMiner with
    | none => .normalProposalMiner
    | some m =>
      match m.identity with
      | .minerNormal => .normalProposalMiner
      | .minerGuard => .guardProposalMiner
      | .minerPool => .minerPoolProposalMiner
      | .inValidMinerPool => .invalidProposalMiner

variable [DecidableEq Address]

namespace IdentityOp

/-- `afterTicketReduce`: a miner pool that falls below the needed tickets is downgraded and
leaves the pool. -/
def afterTicketReduce : IdentityOp → ReduceTicketsOp Address → Option (Miner Address) → UInt64 →
    Proc Address Unit
  | .minerPoolProposalMiner, op, miner, totalTickets => do
    let isFull := isFullTickets totalTickets op.height
    if !isFull then
      let some miner := miner
        | throw (.err "find miner pool miner is nil,addr is %s" .rsFail)
      let mut miner := miner.UpdateIdentity .inValidMinerPool op.height
      if miner.IsActive then
        removeFromPool .proposal op.target miner.stake
        miner := miner.UpdateStatus .prepare op.height
      setMiner miner
  | _, _, _, _ => return

/-- `processReduceTicket`, with the identity's own `afterTicketReduce`. -/
def processReduceTicket (b : IdentityOp) (op : ReduceTicketsOp Address)
    (targetMiner : Option (Miner Address)) : Proc Address Unit := do
  let totalTickets ← subTicket op.target
  b.afterTicketReduce op targetMiner totalTickets

end IdentityOp

/-- `reduceTicketsOp.Transition`. -/
def ReduceTicketsOp.Transition (op : ReduceTicketsOp Address) : Proc Address Result := do
  let targetMiner ← getMiner op.target .proposal
  let baseOp := geneBaseIdentityOp .proposal targetMiner
  toResult "reduce ticket failed,target=%s,height=%v,error="
    (baseOp.processReduceTicket op targetMiner)

/-- `newReduceTicketsOp(db, target, height).Transition()`. -/
def reduceTickets (target : Address) (height : UInt64) : Proc Address Result :=
  ReduceTicketsOp.Transition { target := target, height := height }

/-- `processVote` of `core/miner_base.go`: record the vote, move the ticket from the old target
to the new one, and report whether the target now has enough tickets.  The empty address stands
for "no vote". -/
def processVote [Zero Address] (op : VoteMinerPoolOp Address) (vf : Option (VoteInfo Address)) :
    Proc Address Bool := do
  let vf ← match vf with
    | none => initVoteInfo op.source
    | some vf => pure vf
  let oldTarget := vf.target
  voteMinerPool vf op.source op.targetAddr op.height
  let empty : Address := 0
  let totalTickets ← if oldTarget = op.targetAddr ∧ oldTarget ≠ empty then
      getTickets op.targetAddr
    else do
      if oldTarget ≠ empty then
        let ret ← reduceTickets oldTarget op.height
        if let some e := ret.err then throw (.err e ret.transitionStatus)
      addTicket op.targetAddr
  return isFullTickets totalTickets op.height

/-- `checkVote`: only a guard votes, once per round. -/
def checkVote (op : VoteMinerPoolOp Address) (vf : Option (VoteInfo Address)) :
    Proc Address Unit := do
  let some sourceMiner ← getMiner op.source .proposal
    | throw (.err "miner info is nil,cannot vote" .rsMinerUnSupportOp)
  if !sourceMiner.IsGuard then
    throw (.err "this miner is not guard node,can not vote" .rsMinerUnSupportOp)
  let voteHeight := match vf with
    | some vf => vf.height
    | none => 0
  if !checkCanVote voteHeight op.height then
    throw (.err "has voted in this round,can not vote,last vote height = %v" .rsVoteNotInRound)

/-- `guardNodeExpired`: the guard becomes a normal miner, leaves the full-stake guard pool (when
it is not a fund guard), and its vote is withdrawn. -/
def guardNodeExpired [Zero Address] (address : Address) (height : UInt64)
    (isFundGuardNode : Bool) : Proc Address (Option String) := do
  let some miner ← getMiner address .proposal
    | return some "guard invalid find miner is nil,addr is %s"
  setMiner (miner.UpdateIdentity .minerNormal height)
  -- fund guard node is not in this pool,only full stake node in this pool
  if !isFundGuardNode then removeFullStakeGuardNodeFromPool address
  let some vf ← getVoteInfo address | return none
  delVoteInfo address
  let empty : Address := 0
  if vf.target ≠ empty then
    let ret ← reduceTickets vf.target height
    if let some e := ret.err then return some e
  return none

namespace IdentityOp

/-! ## Stake add -/

/-- `checkStakeAdd`: who may stake to a miner of each identity. -/
def checkStakeAdd (env : MinerEnv Address) : IdentityOp → StakeAddOp Address →
    Option (Miner Address) → Proc Address Unit
  | .verifyMiner, op, _ => do
    if op.addSource ≠ op.addTarget then
      throw (.err "could not stake to other's verify node" .rsMinerUnSupportOp)
  | .normalProposalMiner, op, _ => do
    if op.addSource = op.addTarget ∨ op.addSource = env.stakePlatformAddr then return
    let sourceMiner ← getMiner op.addSource .proposal
    if sourceMiner.any (·.IsMinerPool) then return
    throw (.err "stake add to normal node only can be stake add by fund owner or miner pool"
      .rsMinerUnSupportOp)
  | .guardProposalMiner, op, _ => do
    if op.addSource ≠ op.addTarget then
      throw (.err "guard miner node cannot be staked by others" .rsMinerUnSupportOp)
  | .minerPoolProposalMiner, op, _ => do
    let sourceMiner ← getMiner op.addSource .proposal
    if sourceMiner.any (·.IsMinerPool) ∧ op.addSource ≠ op.addTarget then
      throw (.err "miner pool can not stake add to other miner pool" .rsMinerUnSupportOp)
  | .invalidProposalMiner, _, _ =>
    throw (.err "invalid miner pool not support stake add" .rsMinerUnSupportOp)

/-- `checkUpperBound`: a miner pool may hold the stake of all its needed tickets. -/
def checkUpperBound : IdentityOp → Miner Address → UInt64 → Bool
  | .minerPoolProposalMiner, miner, height => checkMinerPoolUpperBound miner height
  | _, miner, height => Zvchain.checkUpperBound miner height

end IdentityOp

/-- `initMiner`. -/
def initMiner (op : StakeAddOp Address) : Miner Address :=
  { id := op.addTarget, publicKey := [], vrfPublicKey := [], applyHeight := op.height,
    stake := op.value, statusUpdateHeight := 0, type := op.minerType, status := .prepare,
    identity := .minerNormal, identityUpdateHeight := 0 }

/-- The target miner of a stake add with the value added: the existing record, or `initMiner`;
a stake to oneself also takes the keys of the operation. -/
def stakeAddedMiner (op : StakeAddOp Address) (targetMiner : Option (Miner Address)) :
    Miner Address :=
  let m := match targetMiner with
    | some m => { m with stake := m.stake + op.value }
    | none => initMiner op
  if op.addTarget = op.addSource then setPks m op.minerPks else m

/-- `BaseMiner.processStakeAdd`: debit the source, add the value to the miner's stake (creating
the miner if needed), activate it when it qualifies, and add the value to the source's staked
detail in the target account.  The debit comes before the frozen, overflow and upper-bound
checks; the caller reverts on error. -/
def processStakeAdd (op : StakeAddOp Address) (targetMiner : Option (Miner Address))
    (checkUpperBound : Miner Address → UInt64 → Bool) : Proc Address Unit := do
  if let some e ← reduceBalance op.addSource op.value then throw (.err e .rsBalanceNotEnough)
  -- an existing miner must not be frozen, and its stake must not overflow
  if targetMiner.any (·.IsFrozen) then
    throw (.err "miner is frozen, cannot add stake" .rsMinerStakeFrozen)
  if targetMiner.any fun m => m.stake + op.value < m.stake then
    throw (.err "stake overflow:%v %v" .rsFail)
  let mut targetMiner := stakeAddedMiner op targetMiner
  if !checkUpperBound targetMiner op.height then
    throw (.err "stake more than upper bound:%v" .rsMinerStakeOverLimit)
  if targetMiner.IsActive then
    if IsProposalRole op.minerType then addProposalTotalStake op.value
  else if checkCanActivate targetMiner then
    targetMiner := targetMiner.UpdateStatus .active op.height
    addToPool op.minerType op.addTarget targetMiner.stake
  setMiner targetMiner
  -- the source's staked detail in the target account
  let detailKey : DetailKey Address := ⟨op.addSource, op.minerType, .staked⟩
  let detail ← getDetail op.addTarget detailKey
  if detail.any fun d => d.value + op.value < d.value then
    throw (.err "stake detail value overflow:%v %v" .rsFail)
  setDetail op.addTarget detailKey (accumulateDetail detail op.value op.height)

/-! ## Abort and reduce -/

/-- `BaseMiner.checkStakeAbort`. -/
def checkStakeAbort (op : MinerAbortOp Address) (miner : Option (Miner Address)) :
    Proc Address (Miner Address) := do
  let some miner := miner | throw (.err "no miner info" .rsMinerNotExists)
  if miner.IsPrepare then throw (.err "already in prepare status" .rsMinerAbortHasPrepared)
  if miner.IsFrozen ∧ op.height ≤ miner.statusUpdateHeight + oneHourBlocks then
    throw (.err "frozen miner can't abort less than 1 hour since frozen" .rsMinerStakeFrozen)
  return miner

/-- `checkCanReduce`: a frozen miner must abort first, and a verifier goes below the lower bound
only when it is not active and in no living group. -/
def checkCanReduce (env : MinerEnv Address) (op : StakeReduceOp Address) (minerType : MinerType)
    (miner : Miner Address) : Proc Address Unit := do
  if miner.IsFrozen then throw (.err "frozen miner must abort first" .rsMinerStakeFrozen)
  if !checkLowerBound miner ∧ IsVerifyRole minerType then
    if miner.IsActive then
      throw (.err "active verify miner cann't reduce stake to below bound"
        .rsMinerVerifyLowerStake)
    if !MinerJoinedLivedGroupCountFilter env 1 op.height op.cancelTarget then
      throw (.err "miner still in active groups, cannot reduce stake" .rsMinerVerifyInGroup)

/-- `BaseMiner.processStakeReduce`: lower the stake (leaving the pool below the lower bound),
then move the value from the source's staked detail to its frozen detail.  The miner record and
the total stake are written before the detail checks; the caller reverts on error. -/
def processStakeReduce (env : MinerEnv Address) (op : StakeReduceOp Address)
    (miner : Option (Miner Address)) : Proc Address Unit := do
  let some miner := miner | throw (.err "no miner info" .rsMinerNotExists)
  if miner.stake < op.value then
    throw (.err "miner stake not enough:%v %v" .rsMinerStakeLessThanReduce)
  let originStake := miner.stake
  let mut miner := { miner with stake := miner.stake - op.value }
  checkCanReduce env op op.minerType miner
  -- Sub the corresponding total stake of the proposals
  if miner.IsActive ∧ IsProposalRole op.minerType then
    if !checkLowerBound miner then
      removeFromPool op.minerType op.cancelTarget originStake
      miner := miner.UpdateStatus .prepare op.height
    else
      subProposalTotalStake op.value
  setMiner miner
  let stakedDetailKey : DetailKey Address := ⟨op.cancelSource, op.minerType, .staked⟩
  let some stakedDetail ← getDetail op.cancelTarget stakedDetailKey
    | throw (.err "target account has no staked detail data" .rsFail)
  if op.height < stakedDetail.disMissHeight then
    throw (.err "current height can not be reduce,dismissHeight is %v,current height is %v"
      .rsMinerReduceHeightNotEnough)
  -- Must not happened
  if stakedDetail.value > originStake then
    throw (.panic "detail stake more than total stake of the miner:%v %v %x")
  if stakedDetail.value < op.value then
    throw (.err "detail stake less than cancel amount:%v %v" .rsMinerStakeLessThanReduce)
  let stakedDetail : StakeDetail :=
    { stakedDetail with value := stakedDetail.value - op.value, height := op.height }
  -- a detail that falls to zero is removed
  if stakedDetail.value = 0 then removeDetail op.cancelTarget stakedDetailKey
  else setDetail op.cancelTarget stakedDetailKey stakedDetail
  -- the value moves to the source's frozen detail
  let frozenDetailKey : DetailKey Address := ⟨op.cancelSource, op.minerType, .stakeFrozen⟩
  let frozenDetail ← getDetail op.cancelTarget frozenDetailKey
  setDetail op.cancelTarget frozenDetailKey (accumulateDetail frozenDetail op.value op.height)

namespace IdentityOp

/-- `processMinerAbort`: an active miner leaves the pool, and every miner goes to prepare. -/
def processMinerAbort (op : MinerAbortOp Address) (miner : Option (Miner Address)) :
    IdentityOp → Proc Address Unit
  | .invalidProposalMiner =>
    throw (.err "invalid miner pool unSupported miner abort" .rsMinerUnSupportOp)
  | _ => do
    let miner ← checkStakeAbort op miner
    if miner.IsActive then removeFromPool op.minerType op.addr miner.stake
    setMiner (miner.UpdateStatus .prepare op.height)

/-! ## Votes -/

/-- `afterTicketsFull`: a target with enough tickets becomes a miner pool (a new record with no
stake if it had none); a miner pool stays as it is. -/
def afterTicketsFull (op : VoteMinerPoolOp Address) (targetMiner : Option (Miner Address)) :
    IdentityOp → Proc Address Unit
  | .minerPoolProposalMiner => return
  | _ => do
    let targetMiner := targetMiner.getD
      { id := op.targetAddr, publicKey := [], vrfPublicKey := [], applyHeight := op.height,
        stake := 0, statusUpdateHeight := 0, type := .proposal, status := .prepare,
        identity := .minerNormal, identityUpdateHeight := 0 }
    setMiner (targetMiner.UpdateIdentity .minerPool op.height)

/-- `processVote` of the identity of the vote's target: verifiers and guards cannot be voted
for. -/
def processVote [Zero Address] (op : VoteMinerPoolOp Address)
    (targetMiner : Option (Miner Address)) : IdentityOp → Proc Address Unit
  | .verifyMiner => throw (.err "verify node not support vote" .rsMinerUnSupportOp)
  | .guardProposalMiner => throw (.err "guard node not support vote" .rsMinerUnSupportOp)
  | b => do
    let vf ← getVoteInfo op.source
    checkVote op vf
    let isFull ← Zvchain.processVote op vf
    if isFull then b.afterTicketsFull op targetMiner

/-! ## Guard application -/

/-- `afterBecomeFullGuardNode`: a normal miner enters the full-stake guard pool for half an
adjust period; a fund guard does so once and then extends its dismiss height. -/
def afterBecomeFullGuardNode (detailKey : DetailKey Address) (detail : StakeDetail)
    (address : Address) (height : UInt64) : IdentityOp → Proc Address Unit
  | .normalProposalMiner => do
    let detail := { detail with disMissHeight := height + adjustWeightPeriod / 2 }
    addFullStakeGuardPool address
    setDetail address detailKey detail
  | .guardProposalMiner => do
    -- it must be fund guard node
    let detail ← if detail.disMissHeight = 0 then do
        if let some e ← updateFundGuardPoolStatus address .fullStakeGuardNodeType height then
          throw (.err e .rsFail)
        addFullStakeGuardPool address
        pure { detail with disMissHeight := height + adjustWeightPeriod / 2 }
      else pure { detail with disMissHeight := detail.disMissHeight + adjustWeightPeriod / 2 }
    setDetail address detailKey detail
  | _ => return

/-- `BaseMiner.checkApplyGuard`. -/
def checkApplyGuard (op : ApplyGuardMinerOp Address) (miner : Option (Miner Address))
    (detail : Option StakeDetail) : Proc Address (Miner Address × StakeDetail) := do
  let some miner := miner | throw (.err "no miner info" .rsMinerNotExists)
  let some detail := detail
    | throw (.err "target account has no staked detail data" .rsMinerNotFullStake)
  if !isFullStake detail.value op.height then
    throw (.err "not full stake,apply guard faild" .rsMinerNotFullStake)
  if detail.disMissHeight > op.height ∧ detail.disMissHeight - op.height > adjustWeightPeriod / 2
  then throw (.err "apply guard time too long,addr is %s" .rsMinerMaxApplyGuard)
  return (miner, detail)

/-- `processApplyGuard`: a fully staked normal miner or fund guard becomes a guard. -/
def processApplyGuard (op : ApplyGuardMinerOp Address) (miner : Option (Miner Address)) :
    IdentityOp → Proc Address Unit
  | .verifyMiner => throw (.err "verify node not support apply guard node" .rsMinerUnSupportOp)
  | .minerPoolProposalMiner =>
    throw (.err "miner pool not support apply guard node" .rsMinerUnSupportOp)
  | .invalidProposalMiner =>
    throw (.err "invalid miner pool not support apply guard node" .rsMinerUnSupportOp)
  | b => do
    let detailKey : DetailKey Address := ⟨op.targetAddr, .proposal, .staked⟩
    let stakedDetail ← getDetail op.targetAddr detailKey
    let (miner, stakedDetail) ← checkApplyGuard op miner stakedDetail
    setMiner (miner.UpdateIdentity .minerGuard op.height)
    b.afterBecomeFullGuardNode detailKey stakedDetail op.targetAddr op.height
    -- if this node is guard node,its has vote info,only set true
    if let some vf ← getVoteInfo op.targetAddr then
      setVoteInfo op.targetAddr { vf with height := op.height }

end IdentityOp

/-- `BaseMiner.processChangeFundGuardMode`.  On success the source returns `(nil, RSFail)`
(`if err == nil { return err, types.RSFail }`): a nil error, so the operation succeeds. -/
def processChangeFundGuardMode (op : ChangeFundGuardMode Address) : Proc Address Unit := do
  if op.height > adjustWeightPeriod / 2 then
    throw (.err "changge fund guard mode must be in suitable height" .rsMinerChangeModeExpired)
  let some fn ← getFundGuardNode op.source
    | throw (.err "fund  guard info is nil" .rsMinerUnSupportOp)
  if fn.type ≠ .fundGuardNodeType then
    throw (.err "only fund guard can do this operator" .rsMinerUnSupportOp)
  updateFundGuardMode fn op.source op.mode op.height

end Zvchain
