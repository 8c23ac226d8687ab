import Zvchain.Types.Miner

/-!
# The account state as the miner code reads and writes it

The miner code keeps everything in account storage under a handful of key families
(`core/miner_base.go`, `common/types.go`).  Each family becomes one field of `State`, typed by
the record the code stores there:

* `getMinerKey(typ)` under the miner's address: `miner`;
* `getDetailKey(source, typ, status)` under the target's address: `detail`;
* `PrefixPoolProposal`/`PrefixPoolVerifier ++ address` under `MinerPoolAddr`: `pool`;
* `KeyPoolProposalTotalStake` under `MinerPoolAddr`: `totalStake` (an absent key reads `0`);
* `KeyTickets ++ address` under `MinerPoolTicketsAddr`: `tickets` (an absent key reads `0`);
* `KeyVote` under the voter: `vote`;
* `KeyGuardNodes ++ address` under `FundGuardNodeAddr` and `FullStakeGuardNodeAddr`:
  `fundGuard` and `fullStakeGuard`;
* `KeyScanSixAddFiveNodes`, `KeyScanSixAddSixNodes` under `ScanAllFundGuardStatusAddr`.

The key families have pairwise different lengths or different accounts, so no write of one family
changes another.  Values are the records themselves: the msgpack round trip of a record the code
wrote is the identity, so the decode errors of `getMiner` and its siblings cannot arise.

Procedures are `EStateM` computations: an error is returned with the state as the procedure left
it (the caller reverts to a snapshot), and a panic is an error nobody handles.
-/

namespace Zvchain

/-- `stakeDetail`. -/
structure StakeDetail where
  value : UInt64
  height : UInt64
  disMissHeight : UInt64
  markNotFullHeight : UInt64
  deriving DecidableEq, Repr

/-- The key `getDetailKey(address, typ, status)`: the source of the stake, the miner type and
the stake status. -/
structure DetailKey (Address : Type) where
  address : Address
  typ : MinerType
  status : StakeStatus
  deriving DecidableEq, Repr

/-- `voteInfo`. -/
structure VoteInfo (Address : Type) where
  target : Address
  height : UInt64
  deriving DecidableEq, Repr

/-- `FundGuardType`. -/
inductive FundGuardType where
  | normalNodeType
  | fullStakeGuardNodeType
  | fundGuardNodeType
  deriving DecidableEq, Repr

/-- `fundGuardNode`. -/
structure FundGuardNode where
  type : FundGuardType
  height : UInt64
  fundModeType : FundModeType
  deriving DecidableEq, Repr

/-- How a procedure ends abnormally: a returned `(error, ReceiptStatus)` pair, or a panic.
Messages are the format strings of the source, without their arguments. -/
inductive Failure where
  | err (msg : String) (status : ReceiptStatus)
  | panic (msg : String)
  deriving DecidableEq, Repr

/-- The account state, one field per key family.  A stored miner record always sits under its
own `ID` and `Type`: `setMiner` writes it there, and the field `miner_keyed` says so. -/
structure State (Address : Type) where
  balance : Address → ℤ
  nonce : Address → UInt64
  miner : Address → MinerType → Option (Miner Address)
  detail : Address → DetailKey Address → Option StakeDetail
  pool : MinerType → Address → Bool
  totalStake : UInt64
  tickets : Address → UInt64
  vote : Address → Option (VoteInfo Address)
  fundGuard : Address → Option FundGuardNode
  fullStakeGuard : Address → Bool
  scanSixAddFive : Bool
  scanSixAddSix : Bool
  miner_keyed : ∀ a t m, miner a t = some m → m.id = a ∧ m.type = t

/-- Procedures over the state. -/
abbrev Proc (Address : Type) := EStateM Failure (State Address)

namespace State

variable {Address : Type} [DecidableEq Address]

/-! ## Writes -/

/-- `setMiner`: the record goes under its own `ID` and `Type`. -/
def putMiner (s : State Address) (m : Miner Address) : State Address where
  __ := s
  miner := Function.update s.miner m.id (Function.update (s.miner m.id) m.type (some m))
  miner_keyed a t m' h := by
    by_cases ha : a = m.id
    · subst ha
      by_cases ht : t = m.type
      · subst ht; simp at h; subst h; exact ⟨rfl, rfl⟩
      · simp [ht] at h; exact s.miner_keyed _ _ _ h
    · simp [ha] at h; exact s.miner_keyed _ _ _ h

/-- `setDetail` (with `some`) and `removeDetail` (with `none`) in the account `target`. -/
def putDetail (s : State Address) (target : Address) (key : DetailKey Address)
    (d : Option StakeDetail) : State Address :=
  { s with detail := Function.update s.detail target (Function.update (s.detail target) key d) }

def putPool (s : State Address) (typ : MinerType) (address : Address) (b : Bool) :
    State Address :=
  { s with pool := Function.update s.pool typ (Function.update (s.pool typ) address b) }

def putBalance (s : State Address) (address : Address) (v : ℤ) : State Address :=
  { s with balance := Function.update s.balance address v }

def putTickets (s : State Address) (address : Address) (n : UInt64) : State Address :=
  { s with tickets := Function.update s.tickets address n }

def putVote (s : State Address) (address : Address) (v : Option (VoteInfo Address)) :
    State Address :=
  { s with vote := Function.update s.vote address v }

def putFundGuard (s : State Address) (address : Address) (f : Option FundGuardNode) :
    State Address :=
  { s with fundGuard := Function.update s.fundGuard address f }

def putFullStakeGuard (s : State Address) (address : Address) (b : Bool) : State Address :=
  { s with fullStakeGuard := Function.update s.fullStakeGuard address b }

def putNonce (s : State Address) (address : Address) (n : UInt64) : State Address :=
  { s with nonce := Function.update s.nonce address n }

/-! ## Field lemmas of the writes -/

section FieldLemmas

variable (s : State Address)

@[simp] theorem putMiner_miner (m : Miner Address) :
    (s.putMiner m).miner =
      Function.update s.miner m.id (Function.update (s.miner m.id) m.type (some m)) := rfl
@[simp] theorem putMiner_balance (m : Miner Address) : (s.putMiner m).balance = s.balance := rfl
@[simp] theorem putMiner_nonce (m : Miner Address) : (s.putMiner m).nonce = s.nonce := rfl
@[simp] theorem putMiner_detail (m : Miner Address) : (s.putMiner m).detail = s.detail := rfl
@[simp] theorem putMiner_pool (m : Miner Address) : (s.putMiner m).pool = s.pool := rfl
@[simp] theorem putMiner_totalStake (m : Miner Address) :
    (s.putMiner m).totalStake = s.totalStake := rfl
@[simp] theorem putMiner_tickets (m : Miner Address) : (s.putMiner m).tickets = s.tickets := rfl
@[simp] theorem putMiner_vote (m : Miner Address) : (s.putMiner m).vote = s.vote := rfl
@[simp] theorem putMiner_fundGuard (m : Miner Address) :
    (s.putMiner m).fundGuard = s.fundGuard := rfl
@[simp] theorem putMiner_fullStakeGuard (m : Miner Address) :
    (s.putMiner m).fullStakeGuard = s.fullStakeGuard := rfl
@[simp] theorem putMiner_scanSixAddFive (m : Miner Address) :
    (s.putMiner m).scanSixAddFive = s.scanSixAddFive := rfl
@[simp] theorem putMiner_scanSixAddSix (m : Miner Address) :
    (s.putMiner m).scanSixAddSix = s.scanSixAddSix := rfl

attribute [simp] putDetail putPool putBalance putTickets putVote putFundGuard putFullStakeGuard
  putNonce

end FieldLemmas

/-- Reading a miner back after `putMiner`. -/
theorem putMiner_miner_apply (s : State Address) (m : Miner Address) (a : Address)
    (t : MinerType) :
    (s.putMiner m).miner a t = if a = m.id ∧ t = m.type then some m else s.miner a t := by
  by_cases ha : a = m.id
  · subst ha
    by_cases ht : t = m.type
    · subst ht; simp
    · simp [ht]
  · simp [ha]

omit [DecidableEq Address] in
/-- A miner read from `(a, t)` is keyed there. -/
theorem miner_id {s : State Address} {a : Address} {t : MinerType} {m : Miner Address}
    (h : s.miner a t = some m) : m.id = a := (s.miner_keyed a t m h).1

omit [DecidableEq Address] in
theorem miner_type {s : State Address} {a : Address} {t : MinerType} {m : Miner Address}
    (h : s.miner a t = some m) : m.type = t := (s.miner_keyed a t m h).2

end State

end Zvchain
