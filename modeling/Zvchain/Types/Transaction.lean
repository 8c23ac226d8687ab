import Zvchain.Lib.Bytes
import Zvchain.Types.Miner

/-!
# Transactions (`middleware/types/core.go`, `middleware/types/miner.go`, `common/types.go`)

A transaction as a peer sends it, decoded by msgpack: every pointer field may be nil and every
byte field may have any length, so the pointers are options and the type is the raw `int8` the
message carries.  The big integers (`*BigInt`) are integers of any sign, as `GobDecode` reads
them.  `Transaction` adds the hash, which is computed and never sent.

The payload of a stake add carries the miner type and the keys; `DecodePayload` accepts only the
two lengths `EncodePayload` writes, so what it returns has no keys or keys of the right sizes.
-/

namespace Zvchain

/-- `common.HashLength`. -/
def HashLength : ℕ := 32

/-- `common.Hash`: thirty-two bytes. -/
structure Hash where
  bytes : List UInt8
  length_eq : bytes.length = HashLength
  deriving DecidableEq, Repr

/-- `common.BytesToHash`: the last 32 bytes of a longer slice, and a shorter one padded with zeros
in front. -/
def BytesToHash (b : List UInt8) : Hash where
  bytes := List.leftpad HashLength 0 (b.drop (b.length - HashLength))
  length_eq := by
    rw [List.length_leftpad, List.length_drop]
    omega

theorem length_replicate_hashLength :
    (List.replicate HashLength (0 : UInt8)).length = HashLength :=
  List.length_replicate

/-- Thirty-two bytes are a hash as they are. -/
@[simp] theorem bytesToHash_bytes (h : Hash) : BytesToHash h.bytes = h := by
  obtain ⟨b, hb⟩ := h
  simp only [BytesToHash, Nat.sub_self, List.drop_zero, List.leftpad, hb, List.replicate_zero,
    List.nil_append]

/-- The transaction types, `TransactionTypeTransfer` to `TransactionTypeReward`. -/
inductive TxType where
  | transfer
  | contractCreate
  | contractCall
  | stakeAdd
  | minerAbort
  | stakeReduce
  | stakeRefund
  | applyGuardMiner
  | voteMinerPool
  | changeFundGuardMode
  | blacklistUpdate
  | groupPiece
  | groupMpk
  | groupOriginPiece
  | reward
  deriving DecidableEq, Repr

/-- `SystemTransactionOffset`. -/
def SystemTransactionOffset : Int8 := 100

/-- The `int8` each type is sent as. -/
def TxType.code : TxType → Int8
  | .transfer => 0
  | .contractCreate => 1
  | .contractCall => 2
  | .stakeAdd => 3
  | .minerAbort => 4
  | .stakeReduce => 5
  | .stakeRefund => 6
  | .applyGuardMiner => 7
  | .voteMinerPool => 8
  | .changeFundGuardMode => 9
  | .blacklistUpdate => 10
  | .groupPiece => SystemTransactionOffset + 1
  | .groupMpk => SystemTransactionOffset + 2
  | .groupOriginPiece => SystemTransactionOffset + 3
  | .reward => SystemTransactionOffset + 4

/-- The type a code names, if any: the cases of the type switch in `getValidator`. -/
def TxType.ofCode (c : Int8) : Option TxType :=
  [TxType.transfer, .contractCreate, .contractCall, .stakeAdd, .minerAbort, .stakeReduce,
    .stakeRefund, .applyGuardMiner, .voteMinerPool, .changeFundGuardMode, .blacklistUpdate,
    .groupPiece, .groupMpk, .groupOriginPiece, .reward].find? (·.code = c)

theorem TxType.ofCode_code (t : TxType) : TxType.ofCode t.code = some t := by
  cases t <;> decide

theorem TxType.code_of_ofCode {c : Int8} {t : TxType} (h : TxType.ofCode c = some t) :
    t.code = c := by
  simpa using List.find?_some h

/-- `types.RawTransaction`. -/
structure RawTransaction (Address : Type) where
  data : List UInt8
  value : Option Int
  nonce : UInt64
  target : Option Address
  type : Int8
  gasLimit : Option Int
  gasPrice : Option Int
  extraData : List UInt8
  sign : Option (List UInt8)
  source : Option Address
  deriving DecidableEq, Repr

/-- `types.Transaction`: the raw transaction and its hash. -/
structure Transaction (Address : Type) extends RawTransaction Address where
  hash : Hash
  deriving DecidableEq, Repr

namespace RawTransaction

variable {Address : Type} (tx : RawTransaction Address)

def IsReward : Bool := tx.type == TxType.reward.code

/-- `Payload()`: the data. -/
def Payload : List UInt8 := tx.data

end RawTransaction

/-- `big.Int.IsUint64`. -/
def IsUint64 (v : Int) : Bool := 0 ≤ v && v < 2 ^ 64

/-- `big.Int.Uint64`, on a value that `IsUint64`. -/
def Uint64 (v : Int) : UInt64 := UInt64.ofNat v.toNat

/-- `types.PayloadVersion`. -/
def PayloadVersion : UInt8 := 1

/-- The byte a miner type is stored as: `MinerTypeVerify` is `0`, `MinerTypeProposal` is `1`. -/
def MinerType.toByte : MinerType → UInt8
  | .verify => 0
  | .proposal => 1

/-- The miner type a byte names, if it names one. -/
def MinerType.ofByte (b : UInt8) : Option MinerType :=
  if b = 0 then some .verify else if b = 1 then some .proposal else none

/-- What `DecodePayload` returns: the miner-type byte as it came, and no keys or keys of the
sizes `PksCompleted` asks for. -/
structure DecodedPayload where
  mType : UInt8
  pk : List UInt8
  vrfPk : List UInt8
  decoded : (pk = [] ∧ vrfPk = []) ∨ (pk.length = pkSize ∧ vrfPk.length = vrfPkSize)

/-- `types.DecodePayload`. -/
def DecodePayload (bs : List UInt8) : Except String DecodedPayload :=
  if bs.length ≠ 2 ∧ bs.length ≠ 2 + pkSize + vrfPkSize then .error "length error"
  else match bs with
    | version :: mType :: keys =>
      if version ≠ PayloadVersion then .error "version error %v"
      else if h : keys.length = pkSize + vrfPkSize then
        .ok ⟨mType, keys.take pkSize, keys.drop pkSize,
          Or.inr ⟨by simp [h, pkSize], by simp [h, pkSize, vrfPkSize]⟩⟩
      else .ok ⟨mType, [], [], Or.inl ⟨rfl, rfl⟩⟩
    -- not reached: the length is 2 or more
    | _ => .error "length error"

end Zvchain
