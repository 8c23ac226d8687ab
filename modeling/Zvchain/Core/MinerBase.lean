import Zvchain.Core.State

/-!
# Stake bounds and the storage helpers of the miner code (`core/miner_base.go`)

The constants and height-dependent bounds of staking, and the helpers that read and write the
key families of `State`.  The three helpers that keep the proposal total stake
(`subProposalTotalStake`, `removeFromPool`, `addProposalTotalStake`) panic where the source
panics; `subTicket` floors at zero where the source does.
-/

namespace Zvchain

/-! ## Constants -/

/-- `common.ZVC`: one token in its smallest unit. -/
def ZVC : UInt64 := 1000000000

def MinMinerStake : UInt64 := 500 * ZVC
def initMaxMinerStakeAddAmount : UInt64 := 1000000 * ZVC
def maxMinerStakeAddAdjustPeriod : UInt64 := 30000000
def initMaxMinerStake : UInt64 := 2500000 * ZVC
def MaxMinerStakeAdjustPeriod : UInt64 := 10000000
def stakeAdjustTimes : UInt64 := 12
def initMinerPoolTickets : UInt64 := 8
def minMinerPoolTickets : UInt64 := 1
def minerPoolReduceCount : UInt64 := 2

/-- `adjustWeightPeriod` of `core/rewards_manager.go`, which the miner code also reads. -/
def adjustWeightPeriod : UInt64 := 10000000

/-- The durations of `core/miner_operation.go`, in blocks. -/
def onBlockSeconds : UInt64 := 3
def oneHourBlocks : UInt64 := 86400 / onBlockSeconds / 24
def oneDayBlocks : UInt64 := 86400 / onBlockSeconds
def stakeBuffer : UInt64 := 15 * oneDayBlocks
def refundDeadlineTwoDays : UInt64 := 2 * oneDayBlocks
def refundDeadlineNinetyDays : UInt64 := 90 * oneDayBlocks

/-! ## Bounds -/

def minimumStake : UInt64 := MinMinerStake

/-- `maximumStake`: the initial maximum plus one shrinking increment per elapsed period, for at
most `stakeAdjustTimes` periods. -/
def maximumStake (height : UInt64) : UInt64 :=
  let period := if height > stakeAdjustTimes * MaxMinerStakeAdjustPeriod then stakeAdjustTimes
    else height / MaxMinerStakeAdjustPeriod
  (List.range period.toNat).foldl
    (fun canStake i => canStake + (initMaxMinerStakeAddAmount >>>
      (i.toUInt64 * MaxMinerStakeAdjustPeriod / maxMinerStakeAddAdjustPeriod)))
    initMaxMinerStake

/-- `getValidTicketsByHeight`: the tickets a miner pool needs, falling with height. -/
def getValidTicketsByHeight (height : UInt64) : UInt64 :=
  let reduce := height / (adjustWeightPeriod * 3)
  let reduceTickets := reduce * minerPoolReduceCount
  if initMinerPoolTickets ≤ reduceTickets then minMinerPoolTickets
  else initMinerPoolTickets - reduceTickets

/-- `checkCanVote`: one vote per half adjust period. -/
def checkCanVote (voteHeight currentHeight : UInt64) : Bool :=
  if voteHeight = 0 then true
  else
    let voteRound := voteHeight / (adjustWeightPeriod / 2)
    let currentRound := currentHeight / (adjustWeightPeriod / 2)
    currentRound > voteRound

section Bounds

variable {Address : Type}

def checkLowerBound (miner : Miner Address) : Bool := miner.stake ≥ minimumStake

/-- `checkCanActivate`: complete keys and a stake up to the lower bound. -/
def checkCanActivate (miner : Miner Address) : Bool :=
  if !miner.PksCompleted then false else checkLowerBound miner

def checkUpperBound (miner : Miner Address) (height : UInt64) : Bool :=
  miner.stake ≤ maximumStake height

def isFullStake (stake height : UInt64) : Bool := stake == maximumStake height

def getFullMinerPoolStake (height : UInt64) : UInt64 :=
  maximumStake height * getValidTicketsByHeight height

def checkMinerPoolUpperBound (miner : Miner Address) (height : UInt64) : Bool :=
  miner.stake ≤ getFullMinerPoolStake height

def isFullTickets (totalTickets height : UInt64) : Bool :=
  totalTickets ≥ getValidTicketsByHeight height

/-- `setPks`: only non-empty keys overwrite the stored ones. -/
def setPks (miner : Miner Address) (pks : MinerPks) : Miner Address :=
  let miner := if pks.pk.length > 0 then { miner with publicKey := pks.pk } else miner
  if pks.vrfPk.length > 0 then { miner with vrfPublicKey := pks.vrfPk } else miner

/-- A detail with `value` added at `height`, as the stake add, the stake reduce (on the frozen
detail) and the penalty (on the punishment detail) write it: an absent detail starts at `value`
with no dismiss or mark height. -/
def accumulateDetail (detail : Option StakeDetail) (value height : UInt64) : StakeDetail :=
  let d : StakeDetail := match detail with
    | some d => { d with value := d.value + value }
    | none => { value := value, height := 0, disMissHeight := 0, markNotFullHeight := 0 }
  { d with height := height }

end Bounds

/-! ## Storage helpers -/

section Helpers

variable {Address : Type} [DecidableEq Address]

def getMiner (address : Address) (mType : MinerType) : Proc Address (Option (Miner Address)) :=
  return (← get).miner address mType

def setMiner (miner : Miner Address) : Proc Address Unit :=
  modify (·.putMiner miner)

def getDetail (address : Address) (detailKey : DetailKey Address) :
    Proc Address (Option StakeDetail) :=
  return (← get).detail address detailKey

def setDetail (address : Address) (detailKey : DetailKey Address) (sd : StakeDetail) :
    Proc Address Unit :=
  modify (·.putDetail address detailKey (some sd))

def removeDetail (address : Address) (detailKey : DetailKey Address) : Proc Address Unit :=
  modify (·.putDetail address detailKey none)

def getProposalTotalStake : Proc Address UInt64 :=
  return (← get).totalStake

def setProposalTotalStake (totalStake : UInt64) : Proc Address Unit :=
  modify fun s => { s with totalStake := totalStake }

/-- `getTickets` (through `getTotalTickets`). -/
def getTickets (address : Address) : Proc Address UInt64 :=
  return (← get).tickets address

def getVoteInfo (address : Address) : Proc Address (Option (VoteInfo Address)) :=
  return (← get).vote address

def setVoteInfo (address : Address) (vf : VoteInfo Address) : Proc Address Unit :=
  modify (·.putVote address (some vf))

def delVoteInfo (address : Address) : Proc Address Unit :=
  modify (·.putVote address none)

/-- `initVoteInfo`: store and return the empty vote `newVoteInfo`. -/
def initVoteInfo [Zero Address] (address : Address) : Proc Address (VoteInfo Address) := do
  let vote : VoteInfo Address := { target := 0, height := 0 }
  setVoteInfo address vote
  return vote

/-- `voteMinerPool`: record the vote of `source` for `targetAddress`. -/
def voteMinerPool (vf : VoteInfo Address) (source targetAddress : Address) (height : UInt64) :
    Proc Address Unit :=
  setVoteInfo source { vf with height := height, target := targetAddress }

def getFundGuardNode (address : Address) : Proc Address (Option FundGuardNode) :=
  return (← get).fundGuard address

def setFundGuardNode (address : Address) (fn : FundGuardNode) : Proc Address Unit :=
  modify (·.putFundGuard address (some fn))

/-- `addFundGuardPool`: a new fund guard in the initial `6+6` mode. -/
def addFundGuardPool (address : Address) : Proc Address Unit :=
  setFundGuardNode address
    { type := .fundGuardNodeType, height := 0, fundModeType := .sixAddSix }

def updateFundGuardMode (fn : FundGuardNode) (address : Address) (mode : FundModeType)
    (height : UInt64) : Proc Address Unit :=
  setFundGuardNode address { fn with height := height, fundModeType := mode }

/-- `updateFundGuardPoolStatus`: errors when the address is no fund guard. -/
def updateFundGuardPoolStatus (address : Address) (fnType : FundGuardType) (height : UInt64) :
    Proc Address (Option String) := do
  match ← getFundGuardNode address with
  | none => return some "fund  guard info is nil,addr is %s"
  | some fn =>
    setFundGuardNode address { fn with height := height, type := fnType }
    return none

def addFullStakeGuardPool (address : Address) : Proc Address Unit :=
  modify (·.putFullStakeGuard address true)

def removeFullStakeGuardNodeFromPool (address : Address) : Proc Address Unit :=
  modify (·.putFullStakeGuard address false)

def hasScanedSixAddFiveFundGuards : Proc Address Bool := return (← get).scanSixAddFive

def markScanedSixAddFiveFundGuards : Proc Address Unit :=
  modify fun s => { s with scanSixAddFive := true }

def hasScanedSixAddSixFundGuards : Proc Address Bool := return (← get).scanSixAddSix

def markScanedSixAddSixFundGuards : Proc Address Unit :=
  modify fun s => { s with scanSixAddSix := true }

/-! ## The proposal total stake and the pools -/

/-- `subProposalTotalStake`. -/
def subProposalTotalStake (subStake : UInt64) : Proc Address Unit := do
  let totalStake ← getProposalTotalStake
  -- Must not happen
  if totalStake < subStake then throw (.panic "total stake less than sub stake")
  setProposalTotalStake (totalStake - subStake)

/-- `removeFromPool`: drop the pool key; for a proposer also take its stake off the total. -/
def removeFromPool (minerType : MinerType) (address : Address) (stake : UInt64) :
    Proc Address Unit := do
  if IsProposalRole minerType then
    let totalStake ← getProposalTotalStake
    if totalStake < stake then throw (.panic "totalStake less than stake: %v %v")
    setProposalTotalStake (totalStake - stake)
  modify (·.putPool minerType address false)

/-- `addProposalTotalStake`. -/
def addProposalTotalStake (addStake : UInt64) : Proc Address Unit := do
  let totalStake ← getProposalTotalStake
  -- Must not happen
  if addStake + totalStake < totalStake then throw (.panic "total stake overflow:%v %v")
  setProposalTotalStake (addStake + totalStake)

/-- `addToPool`: set the pool key; for a proposer also add its stake to the total. -/
def addToPool (minerType : MinerType) (address : Address) (addStake : UInt64) :
    Proc Address Unit := do
  if IsProposalRole minerType then addProposalTotalStake addStake
  modify (·.putPool minerType address true)

/-- `addTicket`. -/
def addTicket (address : Address) : Proc Address UInt64 := do
  let totalTickets := (← getTickets address) + 1
  modify (·.putTickets address totalTickets)
  return totalTickets

/-- `subTicket`: floors at zero. -/
def subTicket (address : Address) : Proc Address UInt64 := do
  let totalTickets ← getTickets address
  let totalTickets := if totalTickets < 1 then 0 else totalTickets - 1
  modify (·.putTickets address totalTickets)
  return totalTickets

/-! ## Balances -/

def getBalance (address : Address) : Proc Address ℤ := return (← get).balance address

def addBalance (address : Address) (amount : ℤ) : Proc Address Unit :=
  modify fun s => s.putBalance address (s.balance address + amount)

def subBalance (address : Address) (amount : ℤ) : Proc Address Unit :=
  modify fun s => s.putBalance address (s.balance address - amount)

/-- `AccountDB.CanTransfer`. -/
def canTransfer (address : Address) (amount : ℤ) : Proc Address Bool := do
  if amount < 0 then return false
  return (← getBalance address) ≥ amount

/-- `needTransfer` of `core/state_processor.go`. -/
def needTransfer (amount : ℤ) : Bool := amount > 0

/-- `reduceBalance` of `core/miner_node.go`: debit `value` when it is positive and covered. -/
def reduceBalance (target : Address) (value : UInt64) : Proc Address (Option String) := do
  let amount : ℤ := value.toNat
  if needTransfer amount then
    if !(← canTransfer target amount) then return some "balance not enough"
    subBalance target amount
  return none

end Helpers

end Zvchain
