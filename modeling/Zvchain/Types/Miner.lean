import Mathlib

/-!
# Miner records (`middleware/types/miner.go`, `middleware/types/receipt.go`)

The miner record and the small enumerations it is built from.  A Go byte enumeration becomes an
inductive type with one constructor per constant that the code ever stores: `MinerType` and
`FundModeType` values are checked by `minerTypeCheck` and `fundGuardModeCheck` before a
transaction executes, and `NodeIdentity` and `MinerStatus` are only ever written from their named
constants.  Public keys keep their bytes, since `PksCompleted` reads their lengths.
-/

namespace Zvchain

/-- `types.MinerType`. -/
inductive MinerType where
  | verify
  | proposal
  deriving DecidableEq, Repr

/-- `types.MinerStatus`. -/
inductive MinerStatus where
  | prepare
  | active
  | frozen
  deriving DecidableEq, Repr

/-- `types.NodeIdentity`. -/
inductive NodeIdentity where
  | minerNormal
  | minerGuard
  | minerPool
  | inValidMinerPool
  deriving DecidableEq, Repr

/-- `types.StakeStatus`: the status byte of a stake-detail key. -/
inductive StakeStatus where
  | staked
  | stakeFrozen
  | stakePunishment
  deriving DecidableEq, Repr

/-- `common.FundModeType`. -/
inductive FundModeType where
  | sixAddFive
  | sixAddSix
  deriving DecidableEq, Repr

/-- `types.ReceiptStatus`, in the order of its `iota` constants. -/
inductive ReceiptStatus where
  | rsSuccess
  | rsFail
  | rsBalanceNotEnough
  | rsAbiError
  | rsTvmError
  | rsGasNotEnoughError
  | rsNoCodeError
  | rsParseFail
  | rsMinerStakeFrozen
  | rsMinerStakeOverLimit
  | rsMinerStakeLessThanReduce
  | rsMinerVerifyLowerStake
  | rsMinerVerifyInGroup
  | rsMinerReduceHeightNotEnough
  | rsVoteNotInRound
  | rsMinerUnSupportOp
  | rsMinerNotFullStake
  | rsMinerMaxApplyGuard
  | rsMinerChangeModeExpired
  | rsMinerAbortHasPrepared
  | rsMinerRefundHeightNotEnougn
  | rsMinerNotExists
  deriving DecidableEq, Repr

def IsProposalRole (typ : MinerType) : Bool := typ == .proposal

def IsVerifyRole (typ : MinerType) : Bool := typ == .verify

/-- `pkSize` and `vrfPkSize`. -/
def pkSize : ℕ := 128

def vrfPkSize : ℕ := 32

/-- `types.Miner`: `ID` is the address the record is stored under. -/
structure Miner (Address : Type) where
  id : Address
  publicKey : List UInt8
  vrfPublicKey : List UInt8
  applyHeight : UInt64
  stake : UInt64
  statusUpdateHeight : UInt64
  type : MinerType
  status : MinerStatus
  identity : NodeIdentity
  identityUpdateHeight : UInt64
  deriving DecidableEq, Repr

namespace Miner

variable {Address : Type} (m : Miner Address)

def IsActive : Bool := m.status == .active

def IsFrozen : Bool := m.status == .frozen

def IsPrepare : Bool := m.status == .prepare

def IsGuard : Bool := m.identity == .minerGuard

def IsNormal : Bool := m.identity == .minerNormal

def IsMinerPool : Bool := m.identity == .minerPool

def IsInvalidMinerPool : Bool := m.identity == .inValidMinerPool

def PksCompleted : Bool := m.publicKey.length == pkSize && m.vrfPublicKey.length == vrfPkSize

def UpdateStatus (status : MinerStatus) (height : UInt64) : Miner Address :=
  { m with statusUpdateHeight := height, status := status }

def UpdateIdentity (identity : NodeIdentity) (height : UInt64) : Miner Address :=
  { m with identityUpdateHeight := height, identity := identity }

@[simp] theorem updateStatus_id (s : MinerStatus) (h : UInt64) : (m.UpdateStatus s h).id = m.id := rfl
@[simp] theorem updateStatus_type (s : MinerStatus) (h : UInt64) :
    (m.UpdateStatus s h).type = m.type := rfl
@[simp] theorem updateStatus_status (s : MinerStatus) (h : UInt64) :
    (m.UpdateStatus s h).status = s := rfl
@[simp] theorem updateStatus_stake (s : MinerStatus) (h : UInt64) :
    (m.UpdateStatus s h).stake = m.stake := rfl
@[simp] theorem updateStatus_identity (s : MinerStatus) (h : UInt64) :
    (m.UpdateStatus s h).identity = m.identity := rfl
@[simp] theorem updateStatus_publicKey (s : MinerStatus) (h : UInt64) :
    (m.UpdateStatus s h).publicKey = m.publicKey := rfl
@[simp] theorem updateStatus_vrfPublicKey (s : MinerStatus) (h : UInt64) :
    (m.UpdateStatus s h).vrfPublicKey = m.vrfPublicKey := rfl

@[simp] theorem updateIdentity_id (i : NodeIdentity) (h : UInt64) :
    (m.UpdateIdentity i h).id = m.id := rfl
@[simp] theorem updateIdentity_type (i : NodeIdentity) (h : UInt64) :
    (m.UpdateIdentity i h).type = m.type := rfl
@[simp] theorem updateIdentity_status (i : NodeIdentity) (h : UInt64) :
    (m.UpdateIdentity i h).status = m.status := rfl
@[simp] theorem updateIdentity_stake (i : NodeIdentity) (h : UInt64) :
    (m.UpdateIdentity i h).stake = m.stake := rfl
@[simp] theorem updateIdentity_identity (i : NodeIdentity) (h : UInt64) :
    (m.UpdateIdentity i h).identity = i := rfl
@[simp] theorem updateIdentity_publicKey (i : NodeIdentity) (h : UInt64) :
    (m.UpdateIdentity i h).publicKey = m.publicKey := rfl
@[simp] theorem updateIdentity_vrfPublicKey (i : NodeIdentity) (h : UInt64) :
    (m.UpdateIdentity i h).vrfPublicKey = m.vrfPublicKey := rfl

end Miner

/-- `types.MinerPks` as `DecodePayload` returns it: either no keys, or a 128-byte public key and
a 32-byte VRF key, since the payload is either 2 bytes long or exactly `2 + 128 + 32`. -/
structure MinerPks where
  mType : MinerType
  pk : List UInt8
  vrfPk : List UInt8
  decoded : (pk = [] ∧ vrfPk = []) ∨ (pk.length = pkSize ∧ vrfPk.length = vrfPkSize)

end Zvchain
