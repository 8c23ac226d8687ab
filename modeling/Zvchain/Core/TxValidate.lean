import Zvchain.Types.Transaction
import Zvchain.Params
import Zvchain.Lib.Outcome

/-!
# Transaction validation (`core/tx_validate.go`)

`getValidator(tx, validateState)` checks a transaction before it enters the pool: the checks
every transaction has, then either the reward checks or the gas checks, the state checks when
`validateState`, the checks of its type, and last the recovery of the sender from the signature.

A validator returns an error or nil, and it may also panic; the model returns an `Outcome`.  What
the checks ask of the rest of the node is `ValidatorEnv`: the latest account state, the chain
height, the guard and admin addresses, the signature recovery, the consensus check of a reward
transaction, and the check of a blacklist update.

`changeFundGuardModeValidator` reads `tx.Data[0]` before it checks that the data is one byte, so
a transaction of that type with empty data panics; every other path through the validators that
passes the common, gas and source checks panics only where `stateValidate` adds a nil value
(`getValidator_isPanic`).
-/

namespace Zvchain

def txMaxSize : ℕ := 64000
def gasLimitPerTransaction : ℕ := 500000

def TransactionGasCost : ℕ := 400
def CodeBytePrice : ℕ := 19073
def CodeBytePricePrecision : ℕ := 10000

def adjustGasPricePeriod : UInt64 := 30000000
def adjustGasPriceTimes : UInt64 := 3
def initialMinGasPrice : UInt64 := 500

/-- The byte a fund guard mode is stored as: `SIXAddFive` is `0`, `SIXAddSix` is `1`. -/
def FundModeType.toByte : FundModeType → UInt8
  | .sixAddFive => 0
  | .sixAddSix => 1

/-- `validGasPrice`: the least gas price doubles every period, three times at most. -/
def validGasPrice (gasPrice : Int) (height : UInt64) : Bool :=
  let times := height / adjustGasPricePeriod
  let times := if times > adjustGasPriceTimes then adjustGasPriceTimes else times
  !(gasPrice < ((initialMinGasPrice <<< times).toNat : Int))

/-- What the validators read of the latest account state. -/
structure AccountView (Address : Type) where
  GetBalance : Address → ℕ
  /-- `governInstance.isBlack`. -/
  isBlack : Address → Bool

/-- What the validators ask of the node. -/
structure ValidatorEnv (Address : Type) where
  /-- `BlockChainImpl.LatestAccountDB()`, or its error. -/
  latestAccountDB : Except String (AccountView Address)
  /-- `BlockChainImpl.Height()`. -/
  height : UInt64
  /-- `GuardAddress()`. -/
  guardAddress : List Address
  /-- `AdminAddr()`. -/
  adminAddr : Address
  /-- The address of the key `sign.RecoverPubkey(tx.Hash)` recovers, or its error. -/
  recoverPubkeyAddress : Transaction Address → Except String Address
  /-- `ConsensusHelper.VerifyRewardTransaction`, with its error when it returns false. -/
  verifyRewardTransaction : Transaction Address → Outcome Unit
  /-- `decodeAndVerifyBlackUpdateTx` on the given state. -/
  decodeAndVerifyBlackUpdateTx : Transaction Address → AccountView Address → Except String Unit

section Validators

variable {Address : Type} [DecidableEq Address]

/-- `intrinsicGas`; the sizes are bounded by `commonValidate` first, so the `int` product does
not wrap. -/
def intrinsicGas (tx : Transaction Address) : ℕ :=
  TransactionGasCost + (tx.data.length + tx.extraData.length) * CodeBytePrice /
    CodeBytePricePrecision

def commonValidate (tx : Transaction Address) : Outcome Unit := do
  let size := tx.data.length + tx.extraData.length
  if size > txMaxSize then .error "tx size(%v) should not larger than %v"
  if tx.sign.isNone then .error "tx sign nil"

def gasValidate (tx : Transaction Address) : Outcome Unit := do
  let some gasLimit := tx.gasLimit | .error "gas limit is nil"
  if !IsUint64 gasLimit then .error "gas limit is not uint64"
  let some gasPrice := tx.gasPrice | .error "gas price is nil"
  if !IsUint64 gasPrice then .error "gas price is not uint64"
  if (Uint64 gasLimit).toNat > gasLimitPerTransaction then .error "gas limit too high"
  if gasLimit < intrinsicGas tx then .error "gas limit too low"

def valueValidate (tx : Transaction Address) : Outcome Unit := do
  let some value := tx.value | .error "value is nil"
  if !IsUint64 value then .error "value is not uint64"

/-- `sourceRecover`: `BytesToSign` takes 65 bytes, and the recovered address must be the source. -/
def sourceRecover (recoverPubkeyAddress : Transaction Address → Except String Address)
    (tx : Transaction Address) : Outcome Unit := do
  if (tx.sign.getD []).length ≠ 65 then .error "BytesToSign fail, sign=%v"
  let src ← Outcome.ofExcept (recoverPubkeyAddress tx)
  let source ← Outcome.deref tx.source
  if src ≠ source then .error "recovered source not equal to the given one"

def senderValidate (sender : Address) (db : AccountView Address) (height : UInt64) :
    Outcome Unit :=
  if config.IsZIP003 height && db.isBlack sender then .error "sender cannot launch the transaction"
  else pure ()

/-- The types whose value `stateValidate` adds to the gas fee. -/
def PaysValue (type : Int8) : Prop :=
  type = TxType.transfer.code ∨ type = TxType.contractCreate.code ∨
    type = TxType.contractCall.code ∨ type = TxType.stakeAdd.code

instance (type : Int8) : Decidable (PaysValue type) :=
  inferInstanceAs (Decidable (_ ∨ _ ∨ _ ∨ _))

/-- `stateValidate`, returning the balance.  It reads the value before any type check looks at
it. -/
def stateValidate (db : AccountView Address) (tx : Transaction Address) (height : UInt64) :
    Outcome ℕ := do
  let gasPrice ← Outcome.deref tx.gasPrice
  let gasLimit ← Outcome.deref tx.gasLimit
  let gasLimitFee := gasPrice * gasLimit
  let source ← Outcome.deref tx.source
  let balance := db.GetBalance source
  if gasLimitFee > (balance : Int) then .error "balance not enough for paying gas, %v"
  if PaysValue tx.type then
    let value ← Outcome.deref tx.value
    if gasLimitFee + value > (balance : Int) then
      .error "balance not enough for paying gas and value, %v"
  if !validGasPrice gasPrice height then .error "gas price below the lower bound"
  if tx.type ≠ TxType.minerAbort.code then senderValidate source db height
  return balance

def minerTypeCheck (mt : UInt8) : Outcome Unit :=
  if mt ≠ MinerType.proposal.toByte ∧ mt ≠ MinerType.verify.toByte then
    .error "unknown miner type %v"
  else pure ()

def fundGuardModeCheck (md : UInt8) : Outcome Unit :=
  if md ≠ FundModeType.sixAddFive.toByte ∧ md ≠ FundModeType.sixAddSix.toByte then
    .error "unknown fund guard mode %v"
  else pure ()

def IsInExtractGuardNodes (guardAddress : List Address) (addr : Address) : Bool :=
  guardAddress.contains addr

def transferValidator (tx : Transaction Address) : Outcome Unit := do
  if tx.target.isNone then .error "target is nil"
  valueValidate tx

def stakeAddValidator (tx : Transaction Address) : Outcome Unit := do
  if tx.data = [] then .error "data is empty"
  if tx.target.isNone then .error "target is nil"
  let pks ← Outcome.ofExcept (DecodePayload tx.data)
  minerTypeCheck pks.mType
  valueValidate tx

/-- The validators of the miner operations whose data is the miner type: one byte, checked after
the length, and a target where `needTarget`. -/
def minerTypeDataValidator (needTarget : Bool) (tx : Transaction Address) : Outcome Unit := do
  if tx.data.length ≠ 1 then .error "data length should be 1"
  if needTarget && tx.target.isNone then .error "target is nil"
  let mt ← Outcome.index tx.data 0
  minerTypeCheck mt

def minerAbortValidator (tx : Transaction Address) : Outcome Unit :=
  minerTypeDataValidator false tx

def stakeRefundValidator (tx : Transaction Address) : Outcome Unit :=
  minerTypeDataValidator true tx

/-- `stakeReduceValidator`: the checks of `stakeRefundValidator`, then those of `valueValidate`
(written out in the source) and a value that is not zero. -/
def stakeReduceValidator (tx : Transaction Address) : Outcome Unit := do
  minerTypeDataValidator true tx
  valueValidate tx
  if (tx.value.map Uint64) = some 0 then .error "value is 0"

def applyGuardValidator (_tx : Transaction Address) : Outcome Unit := pure ()

def voteMinerPoolValidator (tx : Transaction Address) : Outcome Unit :=
  if tx.target.isNone then .error "target is nil" else pure ()

/-- `changeFundGuardModeValidator`: unlike the validators of the miner operations it reads the
mode byte first and checks the length last. -/
def changeFundGuardModeValidator (guardAddress : List Address) (tx : Transaction Address) :
    Outcome Unit := do
  let md ← Outcome.index tx.data 0
  fundGuardModeCheck md
  let source ← Outcome.deref tx.source
  if !IsInExtractGuardNodes guardAddress source then
    .error "operator addr is not in extract guard nodes"
  if tx.data.length ≠ 1 then .error "data length should be 1"

/-- The validators whose transaction carries data: a target is asked for or refused, and the
value is checked where `checkValue`. -/
def dataValidator (needTarget checkValue : Bool) (tx : Transaction Address) : Outcome Unit := do
  if tx.data = [] then .error "data is empty"
  if needTarget then
    if tx.target.isNone then .error "target is nil"
  else
    if tx.target.isSome then .error "target should be nil"
  if checkValue then valueValidate tx

def groupValidator (tx : Transaction Address) : Outcome Unit := dataValidator false false tx

def contractCreateValidator (tx : Transaction Address) : Outcome Unit :=
  dataValidator false true tx

def contractCallValidator (tx : Transaction Address) : Outcome Unit := dataValidator true true tx

def rewardValidate (verifyRewardTransaction : Transaction Address → Outcome Unit)
    (tx : Transaction Address) : Outcome Unit := do
  -- the data is the hash of the rewarded block
  if tx.data.length ≠ HashLength then .error "data length should be 32bit"
  if tx.extraData = [] then .error "extra data empty"
  valueValidate tx
  verifyRewardTransaction tx

def blackUpdateValidate (env : ValidatorEnv Address) (tx : Transaction Address)
    (validateState : Bool) : Outcome Unit := do
  if !config.IsZIP003 env.height then .error "unknown transaction type"
  if tx.data = [] then .error "data is empty"
  let source ← Outcome.deref tx.source
  if source ≠ env.adminAddr then .error "cannot launch the kind of transaction"
  if validateState then
    let db ← Outcome.ofExcept env.latestAccountDB
    Outcome.ofExcept (env.decodeAndVerifyBlackUpdateTx tx db)

/-- The type switch of `getValidator`. -/
def typeValidator (env : ValidatorEnv Address) (tx : Transaction Address)
    (validateState : Bool) : Outcome Unit :=
  match TxType.ofCode tx.type with
  | some .transfer => transferValidator tx
  | some .contractCreate => contractCreateValidator tx
  | some .contractCall => contractCallValidator tx
  | some .stakeAdd => stakeAddValidator tx
  | some .minerAbort => minerAbortValidator tx
  | some .stakeReduce => stakeReduceValidator tx
  | some .stakeRefund => stakeRefundValidator tx
  | some .applyGuardMiner => applyGuardValidator tx
  | some .voteMinerPool => voteMinerPoolValidator tx
  | some .changeFundGuardMode => changeFundGuardModeValidator env.guardAddress tx
  | some .groupPiece | some .groupMpk | some .groupOriginPiece => groupValidator tx
  | some .blacklistUpdate => blackUpdateValidate env tx validateState
  -- a reward never reaches the switch
  | some .reward | none => .error "no such kind of tx"

/-- `getValidator(tx, validateState)()`. -/
def getValidator (env : ValidatorEnv Address) (tx : Transaction Address) (validateState : Bool) :
    Outcome Unit := do
  commonValidate tx
  if tx.IsReward then rewardValidate env.verifyRewardTransaction tx
  else
    gasValidate tx
    if tx.source.isNone then .error "source is nil"
    if validateState then
      let db ← match env.latestAccountDB with
        | .ok db => pure db
        | .error _ => .error "fail get last state db,error = %v"
      let _ ← stateValidate db tx env.height
    typeValidator env tx validateState
    -- the source is recovered last, for performance
    sourceRecover env.recoverPubkeyAddress tx

end Validators

/-! ## Where a validator can panic

Each validator is a chain of checks that return early.  Those whose reads are guarded never
panic; the others panic only at an unguarded read.  With the panic-freedom lemmas of `Outcome`
in the simp set, `simp` takes a chain of checks apart; a validator with a read that may fail is
first given the value the read finds. -/

section Panics

variable {Address : Type}

@[simp] theorem commonValidate_isPanic (tx : Transaction Address) :
    (commonValidate tx).IsPanic = false := by
  simp [commonValidate]

@[simp] theorem gasValidate_isPanic (tx : Transaction Address) :
    (gasValidate tx).IsPanic = false := by
  simp only [gasValidate]
  repeat' split
  all_goals simp

@[simp] theorem valueValidate_isPanic (tx : Transaction Address) :
    (valueValidate tx).IsPanic = false := by
  simp only [valueValidate]
  split <;> simp

@[simp] theorem minerTypeCheck_isPanic (mt : UInt8) : (minerTypeCheck mt).IsPanic = false := by
  simp [minerTypeCheck]

@[simp] theorem fundGuardModeCheck_isPanic (md : UInt8) :
    (fundGuardModeCheck md).IsPanic = false := by
  simp [fundGuardModeCheck]

@[simp] theorem transferValidator_isPanic (tx : Transaction Address) :
    (transferValidator tx).IsPanic = false := by
  simp [transferValidator]

@[simp] theorem stakeAddValidator_isPanic (tx : Transaction Address) :
    (stakeAddValidator tx).IsPanic = false := by
  simp [stakeAddValidator]

/-- The miner-type byte is read after the length check, so these validators never panic. -/
@[simp] theorem minerTypeDataValidator_isPanic (needTarget : Bool) (tx : Transaction Address) :
    (minerTypeDataValidator needTarget tx).IsPanic = false := by
  simp only [minerTypeDataValidator]
  split
  · simp
  · -- the length is one, so the read of the first byte is in range
    have hlen : 0 < tx.data.length := by omega
    simp [Outcome.index_of_lt hlen]

@[simp] theorem stakeReduceValidator_isPanic (tx : Transaction Address) :
    (stakeReduceValidator tx).IsPanic = false := by
  simp [stakeReduceValidator]

@[simp] theorem voteMinerPoolValidator_isPanic (tx : Transaction Address) :
    (voteMinerPoolValidator tx).IsPanic = false := by
  simp [voteMinerPoolValidator]

@[simp] theorem dataValidator_isPanic (needTarget checkValue : Bool) (tx : Transaction Address) :
    (dataValidator needTarget checkValue tx).IsPanic = false := by
  simp [dataValidator]

theorem rewardValidate_isPanic (verify : Transaction Address → Outcome Unit)
    (tx : Transaction Address) (h : (rewardValidate verify tx).IsPanic = true) :
    (verify tx).IsPanic = true := by
  by_contra hv
  rw [Bool.not_eq_true] at hv
  have hok : (rewardValidate verify tx).IsPanic = false := by simp [rewardValidate, hv]
  simp [hok] at h

variable [DecidableEq Address]

omit [DecidableEq Address] in
@[simp] theorem senderValidate_isPanic (sender : Address) (db : AccountView Address)
    (height : UInt64) : (senderValidate sender db height).IsPanic = false := by
  simp [senderValidate]

/-- `sourceRecover` panics only on a nil source, which `getValidator` has refused before. -/
theorem sourceRecover_isPanic (recover : Transaction Address → Except String Address)
    (tx : Transaction Address) (h : (sourceRecover recover tx).IsPanic = true) :
    tx.source = none := by
  by_contra hs
  obtain ⟨source, hs⟩ := Option.ne_none_iff_exists'.mp hs
  have hok : (sourceRecover recover tx).IsPanic = false := by simp [sourceRecover, hs]
  simp [hok] at h

omit [DecidableEq Address] in
/-- `stateValidate` panics only where it dereferences a nil field: the gas price, the gas limit,
the source, or the value of a type that pays one. -/
theorem stateValidate_isPanic (db : AccountView Address) (tx : Transaction Address)
    (height : UInt64) (h : (stateValidate db tx height).IsPanic = true) :
    tx.gasPrice = none ∨ tx.gasLimit = none ∨ tx.source = none ∨
      (PaysValue tx.type ∧ tx.value = none) := by
  by_contra hne
  push Not at hne
  obtain ⟨hp, hl, hs, hv⟩ := hne
  obtain ⟨gasPrice, hp⟩ := Option.ne_none_iff_exists'.mp hp
  obtain ⟨gasLimit, hl⟩ := Option.ne_none_iff_exists'.mp hl
  obtain ⟨source, hs⟩ := Option.ne_none_iff_exists'.mp hs
  -- the value is read only for a type that pays one, and then it is there
  have hval : PaysValue tx.type → ∃ value, tx.value = some value := fun hpays =>
    Option.ne_none_iff_exists'.mp (hv hpays)
  have hok : (stateValidate db tx height).IsPanic = false := by
    simp only [stateValidate, hp, hl, hs, Outcome.deref_some, Outcome.ok_bind]
    by_cases hpays : PaysValue tx.type
    · obtain ⟨value, hvalue⟩ := hval hpays
      simp [hpays, hvalue]
    · simp [hpays]
  simp [hok] at h

/-- `changeFundGuardModeValidator` panics on empty data, where `tx.Data[0]` is out of range, or
on a nil source. -/
theorem changeFundGuardModeValidator_isPanic (guards : List Address) (tx : Transaction Address)
    (h : (changeFundGuardModeValidator guards tx).IsPanic = true) :
    tx.data = [] ∨ tx.source = none := by
  by_contra hne
  push Not at hne
  obtain ⟨hd, hs⟩ := hne
  obtain ⟨source, hs⟩ := Option.ne_none_iff_exists'.mp hs
  have hok : (changeFundGuardModeValidator guards tx).IsPanic = false := by
    simp [changeFundGuardModeValidator, Outcome.index_of_lt (List.length_pos_of_ne_nil hd), hs]
  simp [hok] at h

theorem blackUpdateValidate_isPanic (env : ValidatorEnv Address) (tx : Transaction Address)
    (validateState : Bool) (h : (blackUpdateValidate env tx validateState).IsPanic = true) :
    tx.source = none := by
  by_contra hs
  obtain ⟨source, hs⟩ := Option.ne_none_iff_exists'.mp hs
  have hok : (blackUpdateValidate env tx validateState).IsPanic = false := by
    simp [blackUpdateValidate, hs]
  simp [hok] at h

/-- The type switch panics only in the two validators with an unguarded read. -/
theorem typeValidator_isPanic (env : ValidatorEnv Address) (tx : Transaction Address)
    (validateState : Bool) (h : (typeValidator env tx validateState).IsPanic = true) :
    tx.source = none ∨ (tx.type = TxType.changeFundGuardMode.code ∧ tx.data = []) := by
  cases hc : TxType.ofCode tx.type with
  | none => simp [typeValidator, hc] at h
  | some t =>
    have htype := TxType.code_of_ofCode hc
    cases t <;> simp only [typeValidator, hc] at h
    case changeFundGuardMode =>
      rcases changeFundGuardModeValidator_isPanic _ _ h with hd | hs
      · exact Or.inr ⟨htype.symm, hd⟩
      · exact Or.inl hs
    case blacklistUpdate => exact Or.inl (blackUpdateValidate_isPanic env tx validateState h)
    all_goals simp [minerAbortValidator, stakeRefundValidator, applyGuardValidator,
      groupValidator, contractCreateValidator, contractCallValidator] at h

omit [DecidableEq Address] in
theorem gasValidate_ok {tx : Transaction Address} (h : gasValidate tx = .ok ()) :
    tx.gasLimit ≠ none ∧ tx.gasPrice ≠ none := by
  cases hl : tx.gasLimit <;> cases hp : tx.gasPrice <;> simp only [gasValidate, hl, hp] at h
  all_goals repeat' split at h
  all_goals simp_all

/-- What follows the state checks: the type's checks and the recovery of the source. -/
theorem typeValidator_sourceRecover_isPanic (env : ValidatorEnv Address)
    (tx : Transaction Address) (validateState : Bool) (hs : tx.source ≠ none)
    (h : (typeValidator env tx validateState >>= fun _ =>
      sourceRecover env.recoverPubkeyAddress tx).IsPanic = true) :
    tx.type = TxType.changeFundGuardMode.code ∧ tx.data = [] := by
  obtain h | ⟨_, -, h⟩ := Outcome.isPanic_bind h
  · exact (typeValidator_isPanic env tx validateState h).resolve_left hs
  · exact absurd (sourceRecover_isPanic _ tx h) hs

/-- Where `getValidator` panics: in the consensus check of a reward transaction, at a nil value
in the state checks, or at the first data byte of a fund-mode change with empty data. -/
theorem getValidator_isPanic (env : ValidatorEnv Address) (tx : Transaction Address)
    (validateState : Bool) (h : (getValidator env tx validateState).IsPanic = true) :
    (tx.IsReward ∧ (env.verifyRewardTransaction tx).IsPanic) ∨
      (validateState ∧ PaysValue tx.type ∧ tx.value = none) ∨
      (tx.type = TxType.changeFundGuardMode.code ∧ tx.data = []) := by
  simp only [getValidator] at h
  obtain h | ⟨_, -, h⟩ := Outcome.isPanic_bind h
  · simp at h
  split at h
  case isTrue hr => exact Or.inl ⟨hr, rewardValidate_isPanic _ _ h⟩
  case isFalse =>
    obtain h | ⟨_, hgas, h⟩ := Outcome.isPanic_bind h
    · simp at h
    obtain ⟨hl, hp⟩ := gasValidate_ok hgas
    split at h
    case isTrue => simp at h
    case isFalse hs =>
      have hs : tx.source ≠ none := by simpa using hs
      split at h
      case isTrue hv =>
        split at h
        · -- the state checks ran on the latest state
          simp only [Outcome.pure_eq, Outcome.ok_bind] at h
          obtain h | ⟨_, -, h⟩ := Outcome.isPanic_bind h
          · rcases stateValidate_isPanic _ _ _ h with hp' | hl' | hs' | ⟨hpays, hval⟩
            · exact absurd hp' hp
            · exact absurd hl' hl
            · exact absurd hs' hs
            · exact Or.inr (Or.inl ⟨hv, hpays, hval⟩)
          · exact Or.inr (Or.inr (typeValidator_sourceRecover_isPanic env tx _ hs h))
        · simp at h
      case isFalse => exact Or.inr (Or.inr (typeValidator_sourceRecover_isPanic env tx _ hs h))

/-- A change of the fund guard mode with empty data panics in `getValidator`, with the state
checks or without, once it passes the checks that come before its type's. -/
theorem getValidator_panics_on_empty_fund_mode_data (env : ValidatorEnv Address)
    (tx : Transaction Address) (validateState : Bool)
    (htype : tx.type = TxType.changeFundGuardMode.code) (hdata : tx.data = [])
    (hcommon : commonValidate tx = .ok ()) (hgas : gasValidate tx = .ok ())
    (hsrc : tx.source ≠ none)
    (hstate : validateState = true → ∃ db balance, env.latestAccountDB = .ok db ∧
      stateValidate db tx env.height = .ok balance) :
    getValidator env tx validateState = .panic "runtime error: index out of range" := by
  have hr : tx.IsReward = false := by
    simp only [RawTransaction.IsReward, htype]
    decide
  -- the type's validator reads the first byte of empty data
  have htv : typeValidator env tx validateState = .panic "runtime error: index out of range" := by
    simp [typeValidator, htype, TxType.ofCode_code, changeFundGuardModeValidator, hdata,
      Outcome.index]
  have hs : tx.source.isNone = false := by
    cases hsome : tx.source <;> simp_all
  cases validateState with
  | false => simp [getValidator, hcommon, hgas, hr, hs, htv]
  | true =>
    obtain ⟨db, balance, hdb, hsv⟩ := hstate rfl
    simp [getValidator, hcommon, hgas, hr, hs, hdb, hsv, htv]

end Panics

section FundModeChange

/-- A change of the fund guard mode from address `1` with no data, a gas limit of the intrinsic
400 and the least gas price. -/
def fundModeChangeTx : Transaction ℕ where
  data := []
  value := none
  nonce := 1
  target := none
  type := TxType.changeFundGuardMode.code
  gasLimit := some 400
  gasPrice := some 500
  extraData := []
  sign := some (List.replicate 65 0)
  source := some 1
  hash := ⟨List.replicate HashLength 0, length_replicate_hashLength⟩

/-- A node at height 0 whose latest state gives every address a balance of a million. -/
def fundModeChangeEnv : ValidatorEnv ℕ where
  latestAccountDB := .ok ⟨fun _ => 1000000, fun _ => false⟩
  height := 0
  guardAddress := [1]
  adminAddr := 0
  recoverPubkeyAddress _ := .ok 1
  verifyRewardTransaction _ := pure ()
  decodeAndVerifyBlackUpdateTx _ _ := .ok ()

theorem getValidator_panics_on_fundModeChangeTx :
    commonValidate fundModeChangeTx = .ok () ∧ gasValidate fundModeChangeTx = .ok () ∧
      stateValidate ⟨fun _ => 1000000, fun _ => false⟩ fundModeChangeTx 0 = .ok 1000000 ∧
      getValidator fundModeChangeEnv fundModeChangeTx true =
        .panic "runtime error: index out of range" :=
  ⟨by decide, by decide, by decide,
    getValidator_panics_on_empty_fund_mode_data fundModeChangeEnv fundModeChangeTx true rfl rfl
      (by decide) (by decide) (by simp [fundModeChangeTx])
      fun _ => ⟨⟨fun _ => 1000000, fun _ => false⟩, 1000000, rfl, by decide⟩⟩

/-- The fund-mode change with empty data is a panic of `getValidator`, and of the third kind. -/
theorem getValidator_isPanic_at_fundModeChangeTx :
    (getValidator fundModeChangeEnv fundModeChangeTx true).IsPanic = true ∧
      ((fundModeChangeTx.IsReward ∧
          (fundModeChangeEnv.verifyRewardTransaction fundModeChangeTx).IsPanic) ∨
        (true ∧ PaysValue fundModeChangeTx.type ∧ fundModeChangeTx.value = none) ∨
        (fundModeChangeTx.type = TxType.changeFundGuardMode.code ∧ fundModeChangeTx.data = [])) := by
  have h : (getValidator fundModeChangeEnv fundModeChangeTx true).IsPanic = true := by decide
  exact ⟨h, getValidator_isPanic fundModeChangeEnv fundModeChangeTx true h⟩

end FundModeChange

end Zvchain
