import Zvchain.Core.MinerNode
import Zvchain.Params

/-!
# Miner operations and the miner manager (`core/miner_operation.go`, `core/miner_manager.go`)

Each `Transition` reads the target miner, picks its identity with `geneBaseIdentityOp` and runs the
identity's method.  `executeOperation` reverts to the snapshot when the result carries an error;
nested operations (`reduceTicketsOp` inside a vote or a guard expiry) do not revert by themselves.

Besides the operations of transactions, the manager freezes and penalizes miners for the group
routine, checks guard expiry after each block, and sets up the genesis state.  Loops over lists
of addresses are structural recursions (or `List.forM`) that stop at the first error, as the
`for` loops of the source return at their first error.
-/

namespace Zvchain

variable {Address : Type} [DecidableEq Address]

/-! ## The operations of `core/miner_operation.go` -/

/-- `stakeRefundOp`. -/
structure StakeRefundOp (Address : Type) where
  refundTarget : Address
  refundSource : Address
  minerType : MinerType
  height : UInt64

/-- `minerFreezeOp`. -/
structure MinerFreezeOp (Address : Type) where
  addr : Address
  height : UInt64

/-- `minerPenaltyOp`. -/
structure MinerPenaltyOp (Address : Type) where
  targets : List Address
  rewards : List Address
  value : UInt64
  height : UInt64

/-- `voteMinerPoolOp.Transition`. -/
def VoteMinerPoolOp.Transition [Zero Address] (op : VoteMinerPoolOp Address) :
    Proc Address Result := do
  let targetMiner ← getMiner op.targetAddr .proposal
  let baseOp := geneBaseIdentityOp .proposal targetMiner
  toResult "vote failed,source=%s,target=%s,height=%v,error="
    (baseOp.processVote op targetMiner)

/-- `applyGuardMinerOp.Transition`. -/
def ApplyGuardMinerOp.Transition (op : ApplyGuardMinerOp Address) : Proc Address Result := do
  let some miner ← getMiner op.targetAddr .proposal
    | return { transitionStatus := .rsMinerNotExists,
               err := some "apply guard failed,source=%s,height=%v,error=no miner info" }
  let baseOp := geneBaseIdentityOp .proposal (some miner)
  toResult "apply guard failed,source=%s,height=%v,error="
    (baseOp.processApplyGuard op (some miner))

/-- `changeFundGuardMode.Transition`: every identity runs `BaseMiner.processChangeFundGuardMode`. -/
def ChangeFundGuardMode.Transition (op : ChangeFundGuardMode Address) : Proc Address Result :=
  toResult "change fund mode error,source=%s,mode=%d,height=%v,error="
    (processChangeFundGuardMode op)

/-- `stakeAddOp.Transition`. -/
def StakeAddOp.Transition (env : MinerEnv Address) (op : StakeAddOp Address) :
    Proc Address Result := do
  let targetMiner ← getMiner op.addTarget op.minerType
  let baseOp := geneBaseIdentityOp op.minerType targetMiner
  toResult "stake add failed,from=%s,to=%s,type=%d,height=%d,value=%v,error=" do
    baseOp.checkStakeAdd env op targetMiner
    processStakeAdd op targetMiner baseOp.checkUpperBound

/-- `minerAbortOp.Transition`. -/
def MinerAbortOp.Transition (op : MinerAbortOp Address) : Proc Address Result := do
  let miner ← getMiner op.addr op.minerType
  let baseOp := geneBaseIdentityOp op.minerType miner
  toResult "miner abort failed,addr=%s,type=%d,height=%d,error=" (baseOp.processMinerAbort op miner)

/-- `stakeReduceOp.Transition`: every identity runs `BaseMiner.processStakeReduce`. -/
def StakeReduceOp.Transition (env : MinerEnv Address) (op : StakeReduceOp Address) :
    Proc Address Result := do
  let miner ← getMiner op.cancelTarget op.minerType
  toResult "stake reduce failed,source=%s,target=%s,height=%v,type=%d,value=%v,error="
    (processStakeReduce env op miner)

/-- The refund deadline of `stakeRefundOp.Transition`: two days from `ZIP004` on, and before it
ninety days for a stake frozen after `ZIP003` that is not the stake platform's. -/
def refundDeadline (env : MinerEnv Address) (op : StakeRefundOp Address)
    (frozenHeight : UInt64) : UInt64 :=
  if config.IsZIP004 op.height then refundDeadlineTwoDays
  else if config.IsZIP003 frozenHeight ∧ op.refundSource ≠ env.stakePlatformAddr then
    refundDeadlineNinetyDays
  else refundDeadlineTwoDays

/-- `stakeRefundOp.Transition`: after the deadline, the frozen detail goes back to the source's
balance. -/
def StakeRefundOp.Transition (env : MinerEnv Address) (op : StakeRefundOp Address) :
    Proc Address Result := do
  let frozenDetailKey : DetailKey Address := ⟨op.refundSource, op.minerType, .stakeFrozen⟩
  let some frozenDetail ← getDetail op.refundTarget frozenDetailKey
    | return { transitionStatus := .rsFail, err := some "target has no frozen detail" }
  let dl := refundDeadline env op frozenDetail.height
  if op.height ≤ frozenDetail.height + dl then
    return { transitionStatus := .rsMinerRefundHeightNotEnougn,
             err := some "refund cann't happen util %vdays after last reduce" }
  removeDetail op.refundTarget frozenDetailKey
  addBalance op.refundSource frozenDetail.value.toNat
  return newResult

/-- `minerFreezeOp.Transition`. -/
def MinerFreezeOp.Transition (op : MinerFreezeOp Address) : Proc Address Result := do
  let some miner ← getMiner op.addr .verify
    | return { transitionStatus := .rsMinerNotExists, err := some "no miner info" }
  if miner.IsFrozen then
    return { transitionStatus := .rsFail, err := some "already in forzen status" }
  if !IsVerifyRole miner.type then
    return { transitionStatus := .rsFail, err := some "not a verifier:%v" }
  if miner.IsActive then removeFromPool .verify op.addr miner.stake
  setMiner (miner.UpdateStatus .frozen op.height)
  return newResult

/-- One round of the loop of `minerPenaltyOp.Transition`: freeze the target, take `value` off
its stake, record it in the punishment detail, and take it off the staked detail and, for what
the staked detail does not cover, off the frozen detail. -/
def penalizeTarget [Zero Address] (value height : UInt64) (addr : Address) :
    Proc Address Unit := do
  let some miner ← getMiner addr .verify | throw (.err "no miner info" .rsMinerNotExists)
  if !IsVerifyRole miner.type then throw (.err "not a verifier:%v" .rsFail)
  if miner.IsActive then removeFromPool .verify addr miner.stake
  if miner.stake < value then throw (.panic "stake less than punish value:%v %v of %v")
  setMiner ({ miner with stake := miner.stake - value }.UpdateStatus .frozen height)
  let punishmentKey : DetailKey Address := ⟨0, .verify, .stakePunishment⟩
  let punishmentDetail ← getDetail addr punishmentKey
  setDetail addr punishmentKey (accumulateDetail punishmentDetail value height)
  let normalStakeKey : DetailKey Address := ⟨addr, .verify, .staked⟩
  let some normalDetail ← getDetail addr normalStakeKey
    | throw (.panic "penalty can't find detail of the target:%v")
  if normalDetail.value > value then
    setDetail addr normalStakeKey
      { normalDetail with value := normalDetail.value - value, height := height }
  else
    let remain := value - normalDetail.value
    removeDetail addr normalStakeKey
    if remain > 0 then
      let frozenKey : DetailKey Address := ⟨addr, .verify, .stakeFrozen⟩
      let some frozenDetail ← getDetail addr frozenKey
        | throw (.panic "penalty can't find frozen detail of target:%v")
      if frozenDetail.value < remain then
        throw (.panic "frozen detail value less than remain punish value %v %v %v")
      setDetail addr frozenKey
        { frozenDetail with value := frozenDetail.value - remain, height := height }

/-- The share of each reward target: the uint64 product `value * len(targets)` over the number of
reward targets. -/
def penaltyAddEach (op : MinerPenaltyOp Address) : UInt64 :=
  op.value * op.targets.length.toUInt64 / op.rewards.length.toUInt64

/-- `minerPenaltyOp.Transition`. -/
def MinerPenaltyOp.Transition [Zero Address] (op : MinerPenaltyOp Address) :
    Proc Address Result :=
  toResult "" do
    op.targets.forM (penalizeTarget op.value op.height)
    -- Finally, add the penalty stake to the balance of rewards
    if op.rewards.length > 0 then
      op.rewards.forM fun addr => addBalance addr (penaltyAddEach op).toNat

/-! ## The miner manager -/

/-- `MinerManager.executeOperation`, after a successful `ParseTransaction`: revert to the
snapshot when the operation fails. -/
def executeOperation (transition : Proc Address Result) : Proc Address Result := do
  let snapshot ← get
  let ret ← transition
  if ret.err.isSome then set snapshot
  return ret

/-- The miner operations a transaction carries, as `getOpByType` builds them and
`ParseTransaction` fills them. -/
inductive MinerOp (Address : Type) where
  | stakeAdd (op : StakeAddOp Address)
  | minerAbort (op : MinerAbortOp Address)
  | stakeReduce (op : StakeReduceOp Address)
  | stakeRefund (op : StakeRefundOp Address)
  | voteMinerPool (op : VoteMinerPoolOp Address)
  | applyGuardMiner (op : ApplyGuardMinerOp Address)
  | changeFundGuardMode (op : ChangeFundGuardMode Address)

/-- What `ParseTransaction` and the transaction validators guarantee of a parsed operation:
only a stake for oneself may carry public keys (`stakeAddOp.ParseTransaction`), and a reduce is
of a non-zero value (`stakeReduceValidator`). -/
def MinerOp.Valid : MinerOp Address → Prop
  | .stakeAdd op => op.minerPks.pk ≠ [] → op.addSource = op.addTarget
  | .stakeReduce op => op.value ≠ 0
  | _ => True

/-- The `Transition` of each operation. -/
def MinerOp.Transition [Zero Address] (env : MinerEnv Address) : MinerOp Address →
    Proc Address Result
  | .stakeAdd op => op.Transition env
  | .minerAbort op => op.Transition
  | .stakeReduce op => op.Transition env
  | .stakeRefund op => op.Transition env
  | .voteMinerPool op => op.Transition
  | .applyGuardMiner op => op.Transition
  | .changeFundGuardMode op => op.Transition

/-- `MinerManager.ExecuteOperation`. -/
def ExecuteOperation [Zero Address] (env : MinerEnv Address) (op : MinerOp Address) :
    Proc Address Result :=
  executeOperation (op.Transition env)

/-- `MinerManager.MinerFrozen`. -/
def MinerFrozen (miner : Address) (height : UInt64) : Proc Address Result :=
  executeOperation (MinerFreezeOp.Transition { addr := miner, height := height })

/-- `types.PunishmentMsg`, with its member ids read as addresses. -/
structure PunishmentMsg (Address : Type) where
  penaltyTarget : List Address
  rewardTarget : List Address
  deriving DecidableEq, Repr

/-- `MinerManager.MinerPenalty`: each target loses `minimumStake`. -/
def MinerPenalty [Zero Address] (penalty : PunishmentMsg Address) (height : UInt64) :
    Proc Address Result :=
  executeOperation (MinerPenaltyOp.Transition
    { targets := penalty.penaltyTarget, rewards := penalty.rewardTarget,
      value := minimumStake, height := height })

/-! ## Guard expiry -/

/-- `checkInterval` of `core/miner_manager.go`. -/
def checkInterval : UInt64 := 1000

/-- `GetAllFullStakeGuardNodes`: the addresses under `FullStakeGuardNodeAddr`, in the order the
storage iterator visits them; `order` lists every address in that order. -/
def GetAllFullStakeGuardNodes (order : List Address) : Proc Address (List Address) :=
  return order.filter (← get).fullStakeGuard

/-- `GetAllFundStakeGuardNodes`. -/
def GetAllFundStakeGuardNodes (order : List Address) :
    Proc Address (List (Address × FundGuardNode)) := do
  let s ← get
  return order.filterMap fun a => (s.fundGuard a).map (a, ·)

/-- `checkFullStakeGuardNodeExpired`: a full-stake guard expires a stake buffer after its dismiss
height, or a stake buffer after it was first seen below full stake. -/
def checkFullStakeGuardNodeExpired (address : Address) (height : UInt64) :
    Proc Address (Except String Bool) := do
  let detailKey : DetailKey Address := ⟨address, .proposal, .staked⟩
  let some stakedDetail ← getDetail address detailKey
    | return .error "check guard nodes,find stake detail is nil,address is %s"
  if height > stakedDetail.disMissHeight + stakeBuffer then return .ok true
  if stakedDetail.markNotFullHeight > 0 then
    if height > stakedDetail.markNotFullHeight + stakeBuffer then return .ok true
  else if !isFullStake stakedDetail.value height then
    setDetail address detailKey { stakedDetail with markNotFullHeight := height }
  return .ok false

/-- The loop of `FullStakeGuardNodesCheck`. -/
def collectExpiredFullStakeGuards (height : UInt64) :
    List Address → Proc Address (Except String (List Address))
  | [] => return .ok []
  | addr :: rest => do
    match ← checkFullStakeGuardNodeExpired addr height with
    | .error e => return .error e
    | .ok isExpired =>
      match ← collectExpiredFullStakeGuards height rest with
      | .error e => return .error e
      | .ok expired => return .ok (if isExpired then addr :: expired else expired)

/-- `FullStakeGuardNodesCheck`. -/
def FullStakeGuardNodesCheck (order : List Address) (height : UInt64) :
    Proc Address (Except String (List Address)) := do
  if height < adjustWeightPeriod / 2 then return .ok []
  if height % checkInterval ≠ 0 then return .ok []
  collectExpiredFullStakeGuards height (← GetAllFullStakeGuardNodes order)

/-- The loop of the fund-guard checks: every fund guard in `mode` becomes a normal node. -/
def expireFundGuards (mode : FundModeType) (height : UInt64) :
    List (Address × FundGuardNode) → Proc Address (Except String (List Address))
  | [] => return .ok []
  | (addr, fd) :: rest => do
    if fd.type ≠ .fundGuardNodeType ∨ fd.fundModeType ≠ mode then
      expireFundGuards mode height rest
    else
      if let some e ← updateFundGuardPoolStatus addr .normalNodeType height then
        return .error e
      match ← expireFundGuards mode height rest with
      | .error e => return .error e
      | .ok expired => return .ok (addr :: expired)

/-- The fund-guard check of one mode: once, at a multiple of `checkInterval` between `lo` and
`hi`, every fund guard in `mode` expires and the scan is marked. -/
def fundGuardNodesCheck (lo hi : UInt64) (hasScaned : Proc Address Bool) (mode : FundModeType)
    (markScaned : Proc Address Unit) (order : List Address) (height : UInt64) :
    Proc Address (Except String (List Address)) := do
  if height < lo ∨ height > hi then return .ok []
  if height % checkInterval ≠ 0 then return .ok []
  if ← hasScaned then return .ok []
  let fds ← GetAllFundStakeGuardNodes order
  match ← expireFundGuards mode height fds with
  | .error e => return .error e
  | .ok expiredAddresses =>
    markScaned
    return .ok expiredAddresses

/-- `fundGuardSixAddFiveNodesCheck`. -/
def fundGuardSixAddFiveNodesCheck (order : List Address) (height : UInt64) :
    Proc Address (Except String (List Address)) :=
  fundGuardNodesCheck (adjustWeightPeriod / 2) (adjustWeightPeriod * 2)
    hasScanedSixAddFiveFundGuards .sixAddFive markScanedSixAddFiveFundGuards order height

/-- `fundGuardSixAddSixNodesCheck`. -/
def fundGuardSixAddSixNodesCheck (order : List Address) (height : UInt64) :
    Proc Address (Except String (List Address)) :=
  fundGuardNodesCheck adjustWeightPeriod (adjustWeightPeriod * 3)
    hasScanedSixAddSixFundGuards .sixAddSix markScanedSixAddSixFundGuards order height

/-- `FundGuardExpiredCheck`. -/
def FundGuardExpiredCheck (order : List Address) (height : UInt64) :
    Proc Address (Except String (List Address)) := do
  match ← fundGuardSixAddFiveNodesCheck order height with
  | .error e => return .error e
  | .ok sixAddFive =>
    match ← fundGuardSixAddSixNodesCheck order height with
    | .error e => return .error e
    | .ok sixAddSix => return .ok (sixAddFive ++ sixAddSix)

/-- `processGuardNodeExpired`. -/
def processGuardNodeExpired [Zero Address] (address : Address) (height : UInt64) :
    Proc Address (Option String) := do
  if let some e ← guardNodeExpired address height false then
    return some ("processGuardNodeExpired error :" ++ e)
  return none

/-- Expire the guards in turn, stopping at the first error. -/
def expireGuards (expire : Address → Proc Address (Option String)) :
    List Address → Proc Address (Option String)
  | [] => return none
  | addr :: rest => do
    if let some e ← expire addr then return some e
    expireGuards expire rest

/-- `MinerManager.GuardNodesCheck`: expire the full-stake guards, then the fund guards, each part
reverting to its own snapshot on error. -/
def GuardNodesCheck [Zero Address] (order : List Address) (height : UInt64) :
    Proc Address Unit := do
  let snapshot ← get
  match ← FullStakeGuardNodesCheck order height with
  | .error _ => set snapshot
  | .ok expiredAddresses =>
    if (← expireGuards (processGuardNodeExpired · height) expiredAddresses).isSome then
      set snapshot
  let snapshot ← get
  match ← FundGuardExpiredCheck order height with
  | .error _ => set snapshot
  | .ok allExpiredFundAddresses =>
    if (← expireGuards (guardNodeExpired · height true) allExpiredFundAddresses).isSome then
      set snapshot

/-! ## Genesis -/

/-- `teamFoundationToken` and its siblings of `core/block_util.go`. -/
def teamFoundationToken : UInt64 := 750000000 * ZVC
def businessFoundationToken : UInt64 := 250000000 * ZVC
def stakePlatformToken : UInt64 := 400000000 * ZVC
def circulatesToken : UInt64 := 100000000 * ZVC

/-- A member of the genesis group, with the keys `GenerateGenesisInfo` gives it. -/
structure GenesisMember (Address : Type) where
  id : Address
  pks : MinerPks

/-- What the genesis block is built from: the accounts that `setupGenesisStateDB` credits, the
members of the genesis group, and `GuardAddress()`. -/
structure GenesisInfo (Address : Type) where
  businessFoundationAddr : Address
  teamFoundationAddr : Address
  stakePlatformAddr : Address
  circulatesAddr : Address
  members : List (GenesisMember Address)
  guards : List Address

/-- The empty account state the genesis block starts from. -/
def State.empty : State Address where
  balance _ := 0
  nonce _ := 0
  miner _ _ := none
  detail _ _ := none
  pool _ _ := false
  totalStake := 0
  tickets _ := 0
  vote _ := none
  fundGuard _ := none
  fullStakeGuard _ := false
  scanSixAddFive := false
  scanSixAddSix := false
  miner_keyed _ _ _ h := nomatch h

/-- `setupGenesisStateDB`, on balances: the foundations, the stake platform, the circulating
supply, and four times the minimum stake for every genesis member. -/
def setupGenesisStateDB (info : GenesisInfo Address) : Proc Address Unit := do
  modify (·.putBalance info.businessFoundationAddr businessFoundationToken.toNat)
  modify (·.putBalance info.teamFoundationAddr teamFoundationToken.toNat)
  modify (·.putBalance info.stakePlatformAddr stakePlatformToken.toNat)
  modify (·.putBalance info.circulatesAddr circulatesToken.toNat)
  info.members.forM fun mem => modify (·.putBalance mem.id (4 * minimumStake).toNat)

/-- `addGenesisMinerStake`: a stake add of the minimum stake to oneself at height 0; a failure
panics. -/
def addGenesisMinerStake [Zero Address] (env : MinerEnv Address) (mem : GenesisMember Address)
    (typ : MinerType) : Proc Address Unit := do
  let op : StakeAddOp Address :=
    { minerPks := { mem.pks with mType := typ }, value := minimumStake, addSource := mem.id,
      addTarget := mem.id, minerType := typ, height := 0 }
  let ret ← ExecuteOperation env (.stakeAdd op)
  if ret.err.isSome then throw (.panic "add genesis miner error:%v")
  modify fun s => s.putNonce mem.id (s.nonce mem.id + 1)

/-- `addGenesesMiners`: every member as a verifier, then as a proposer. -/
def addGenesesMiners [Zero Address] (env : MinerEnv Address)
    (members : List (GenesisMember Address)) : Proc Address Unit :=
  members.forM fun mem => do
    addGenesisMinerStake env mem .verify
    addGenesisMinerStake env mem .proposal

/-- `genFundGuardNodes`: every guard address gets a stakeless proposer record with the guard
identity, written directly, and a fund guard entry. -/
def genFundGuardNodes (guards : List Address) : Proc Address Unit :=
  guards.forM fun addr => do
    setMiner
      { id := addr, publicKey := [], vrfPublicKey := [], applyHeight := 0, stake := 0,
        statusUpdateHeight := 0, type := .proposal, status := .prepare,
        identity := .minerGuard, identityUpdateHeight := 0 }
    addFundGuardPool addr
    modify fun s => s.putNonce addr (s.nonce addr + 1)

/-- `insertGenesisBlock`, on the account state that the miner code reads. -/
def insertGenesisBlock [Zero Address] (env : MinerEnv Address) (info : GenesisInfo Address) :
    Proc Address Unit := do
  setupGenesisStateDB info
  addGenesesMiners env info.members
  genFundGuardNodes info.guards

end Zvchain
