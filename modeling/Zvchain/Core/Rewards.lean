import Zvchain.Types.Transaction
import Zvchain.Core.MinerBase
import Zvchain.Lib.Word64

/-!
# Block rewards and the reward transaction (`core/rewards_manager.go`)

`adjustWeightPeriod` is defined with the miner code, which reads it too.  The reward of a block
is released in halving periods and split by weights: between the daemon,
user and miner nodes, and the miners' part between the proposer, the packer of the reward
transaction and the verifiers; the gas fee is split nine to one between proposer and verifiers.
Every share is computed in `uint64` by multiplying first and dividing after, as the code does,
so a product may wrap.

The verifiers' share is paid by a reward transaction that a member of the verifying group packs
(`GenerateReward`): its data is the block hash, and its extra data the version, the group seed,
the pack fee and the two-byte indexes of the rewarded members.  `ParseRewardTransaction` reads
them back and looks the members up in the group.
-/

namespace Zvchain

/-! ## The shares of a block -/

def initialRewards : UInt64 := 62224000000
def halveRewardsPeriod : UInt64 := 30000000
def noRewardsHeight : UInt64 := 120000000

def initialDaemonNodeWeight : UInt64 := 440
def initialMinerNodeWeight : UInt64 := 6460
def userNodeWeight : UInt64 := 100
def totalNodeWeight : UInt64 := 7000
def adjustWeight : UInt64 := 80

def castorRewardsWeight : UInt64 := 8
def packedRewardsWeight : UInt64 := 1
def verifyRewardsWeight : UInt64 := 1
def totalRewardsWeight : UInt64 := 10

def gasFeeCastorRewardsWeight : UInt64 := 9
def gasFeeVerifyRewardsWeight : UInt64 := 1
def gasFeeTotalRewardsWeight : UInt64 := 10

/-- `rewardManager.blockRewards`: halved every period, and twice more from the first weight
adjustment on. -/
def blockRewards (height : UInt64) : UInt64 :=
  if height > noRewardsHeight then 0
  else
    let period := height / adjustWeightPeriod
    let speedUp : UInt64 := if period ≥ 1 then 2 else 0
    Word64.shr initialRewards (height / halveRewardsPeriod + speedUp)

def userNodesRewards (height : UInt64) : UInt64 :=
  let rewards := blockRewards height
  if rewards = 0 then 0 else rewards * userNodeWeight / totalNodeWeight

def daemonNodesRewards (height : UInt64) : UInt64 :=
  let rewards := blockRewards height
  if rewards = 0 then 0
  else
    let daemonNodeWeight := initialDaemonNodeWeight + height / adjustWeightPeriod * adjustWeight
    rewards * daemonNodeWeight / totalNodeWeight

def minerNodesRewards (height : UInt64) : UInt64 :=
  let rewards := blockRewards height
  if rewards = 0 then 0
  else
    let minerNodesWeight := initialMinerNodeWeight - height / adjustWeightPeriod * adjustWeight
    if minerNodesWeight > totalNodeWeight then 0
    else rewards * minerNodesWeight / totalNodeWeight

/-- The part of the miners' rewards a weight gives, out of `totalRewardsWeight`. -/
def minerNodesRewardsShare (weight height : UInt64) : UInt64 :=
  minerNodesRewards height * weight / totalRewardsWeight

def calculateCastorRewards (height : UInt64) : UInt64 :=
  minerNodesRewardsShare castorRewardsWeight height

def calculatePackedRewards (height : UInt64) : UInt64 :=
  minerNodesRewardsShare packedRewardsWeight height

def calculateVerifyRewards (height : UInt64) : UInt64 :=
  minerNodesRewardsShare verifyRewardsWeight height

/-- The part of a gas fee a weight gives, out of `gasFeeTotalRewardsWeight`. -/
def gasFeeShare (weight gasFee : UInt64) : UInt64 :=
  gasFee * weight / gasFeeTotalRewardsWeight

def calculateGasFeeVerifyRewards (gasFee : UInt64) : UInt64 :=
  gasFeeShare gasFeeVerifyRewardsWeight gasFee

def calculateGasFeeCastorRewards (gasFee : UInt64) : UInt64 :=
  gasFeeShare gasFeeCastorRewardsWeight gasFee

/-- `types.CastRewardShare`. -/
structure CastRewardShare where
  forBlockProposal : UInt64
  forBlockVerify : UInt64
  forRewardTxPacking : UInt64
  feeForProposer : UInt64
  feeForVerifier : UInt64
  deriving DecidableEq, Repr

def CastRewardShare.TotalForVerifier (crs : CastRewardShare) : UInt64 :=
  crs.feeForVerifier + crs.forBlockVerify

def CalculateCastRewardShare (height gasFee : UInt64) : CastRewardShare where
  forBlockProposal := calculateCastorRewards height
  forBlockVerify := calculateVerifyRewards height
  forRewardTxPacking := calculatePackedRewards height
  feeForProposer := calculateGasFeeCastorRewards gasFee
  feeForVerifier := calculateGasFeeVerifyRewards gasFee

/-! ## The reward transaction -/

def rewardVersion : UInt8 := 1

/-- `common.Uint64ToByte`: eight bytes, big-endian. -/
def Uint64ToByte (i : UInt64) : List UInt8 := Bytes.toBE 8 i.toNat

/-- `common.UInt16ToByte`: two bytes, big-endian. -/
def UInt16ToByte (i : UInt16) : List UInt8 := Bytes.toBE 2 i.toNat

/-- `common.ByteToUInt16`: `binary.Read` of two bytes; a shorter slice leaves the zero value. -/
def ByteToUInt16 (b : List UInt8) : UInt16 :=
  if b.length < 2 then 0 else UInt16.ofNat (Bytes.ofBE (b.take 2))

/-- `common.ByteToUint64`, `binary.BigEndian.Uint64`, on the eight-byte buffer it is given. -/
def ByteToUint64 (b : List UInt8) : UInt64 := UInt64.ofNat (Bytes.ofBE (b.take 8))

theorem byteToUInt16_uInt16ToByte (i : UInt16) : ByteToUInt16 (UInt16ToByte i) = i := by
  have hlt : i.toNat < 256 ^ 2 := i.toNat_lt
  have hlen : (UInt16ToByte i).length = 2 := Bytes.length_toBE 2 _
  rw [ByteToUInt16, if_neg (by omega), List.take_of_length_le (by omega), UInt16ToByte,
    Bytes.ofBE_toBE_of_lt hlt, UInt16.ofNat_toNat]

theorem byteToUint64_uint64ToByte (i : UInt64) : ByteToUint64 (Uint64ToByte i) = i := by
  have hlt : i.toNat < 256 ^ 8 := i.toNat_lt
  have hlen : (Uint64ToByte i).length = 8 := Bytes.length_toBE 8 _
  rw [ByteToUint64, List.take_of_length_le (by omega), Uint64ToByte, Bytes.ofBE_toBE_of_lt hlt,
    UInt64.ofNat_toNat]

section Generate

variable {Address : Type}

/-- The target indexes as `GenerateReward` writes them, `uint16(idIdx)` each. -/
def encodeTargetIdxs (targetIds : List Int32) : List UInt8 :=
  (targetIds.map fun idIdx => UInt16ToByte idIdx.toUInt32.toUInt16).flatten

/-- `rewardManager.GenerateReward`, the raw transaction it builds before hashing. -/
def GenerateReward (targetIds : List Int32) (blockHash gSeed : Hash)
    (totalValue packFee : UInt64) : Except String (RawTransaction Address) :=
  if targetIds = [] then .error "GenerateReward targetIds size 0"
  else .ok
    { data := blockHash.bytes
      extraData := [rewardVersion] ++ gSeed.bytes ++ Uint64ToByte packFee ++
        encodeTargetIdxs targetIds
      value := some (totalValue / UInt64.ofNat targetIds.length).toNat
      nonce := 0
      target := none
      type := TxType.reward.code
      gasLimit := some 0
      gasPrice := some 0
      sign := none
      source := none }

end Generate

/-- What `ParseRewardTransaction` returns. -/
structure ParsedReward where
  gSeed : Hash
  targets : List (List UInt8)
  blockHash : Hash
  packFee : UInt64
  deriving DecidableEq, Repr

/-- The target loop of `ParseRewardTransaction`: `reader.Read(idx)` into one buffer while a read
returns bytes.  A last odd byte overwrites only the front of the buffer, so its index keeps the
second byte of the read before. -/
def readTargetIdxs (idx rest : List UInt8) : List UInt16 :=
  match h : Bytes.read idx rest with
  | some (n, idx', rest') =>
    if hn : 0 < n then ByteToUInt16 idx' :: readTargetIdxs idx' rest' else []
  | none => []
termination_by rest.length
decreasing_by exact Bytes.read_rest_length h hn

/-- The members at the target indexes, in order; the first index out of the group is an error. -/
def lookupTargets (members : List (List UInt8)) : List UInt16 → Except String (List (List UInt8))
  | [] => pure []
  | idx :: rest =>
    match members[idx.toNat]? with
    | none => throw "target index exceed: group size %v, index %v"
    | some id => do
      let ids ← lookupTargets members rest
      pure (id :: ids)

section Parse

variable {Address : Type}

/-- `rewardManager.ParseRewardTransaction`; `groupMembers` is `GroupManagerImpl.GetGroupBySeed`
with the ids of its members. -/
def ParseRewardTransaction (groupMembers : Hash → Option (List (List UInt8)))
    (msg : RawTransaction Address) : Except String ParsedReward := do
  let some (version, rest) := Bytes.readByte msg.extraData | throw "EOF"
  if version ≠ rewardVersion then throw "reward version error"
  let some (_, gSeedBytes, rest) := Bytes.read (List.replicate HashLength 0) rest
    | throw "read group seed error:%v"
  let some (_, pf, rest) := Bytes.read (List.replicate 8 0) rest
    | throw "read pack fee error:%v"
  let targetIdxs := readTargetIdxs [0, 0] rest
  let gSeed := BytesToHash gSeedBytes
  let some members := groupMembers gSeed | throw "group is nil, gseed=%v"
  let ids ← lookupTargets members targetIdxs
  pure ⟨gSeed, ids, BytesToHash msg.Payload, ByteToUint64 pf⟩

end Parse

/-! ## The reward transaction reads back -/

/-- One round of the target loop: a read that returns bytes gives an index and the loop goes on,
anything else ends it. -/
theorem readTargetIdxs_eq (idx rest : List UInt8) :
    readTargetIdxs idx rest = match Bytes.read idx rest with
      | some (n, idx', rest') => if 0 < n then ByteToUInt16 idx' :: readTargetIdxs idx' rest' else []
      | none => [] := by
  rw [readTargetIdxs]
  split
  · next h => rw [h]; rfl
  · next h => rw [h]

@[simp]
theorem readTargetIdxs_nil (buf : List UInt8) : readTargetIdxs buf [] = [] := by
  rw [readTargetIdxs_eq, show Bytes.read buf [] = none by simp [Bytes.read]]

/-- The target loop reads back the indexes written two bytes each, whatever the two bytes of the
buffer before. -/
theorem readTargetIdxs_encode (idxs : List UInt16) (buf : List UInt8) (hbuf : buf.length = 2) :
    readTargetIdxs buf (idxs.map UInt16ToByte).flatten = idxs := by
  induction idxs generalizing buf with
  | nil => exact readTargetIdxs_nil buf
  | cons i rest ih =>
    have hlen : (UInt16ToByte i).length = buf.length := by
      rw [hbuf]
      exact Bytes.length_toBE 2 _
    have hne : UInt16ToByte i ≠ [] := List.ne_nil_of_length_pos (by omega)
    have hread := @Bytes.read_append buf (UInt16ToByte i) (rest.map UInt16ToByte).flatten hlen hne
    -- the read takes the two bytes of the first index
    rw [List.map_cons, List.flatten_cons, readTargetIdxs_eq, hread]
    dsimp only
    rw [if_pos (by omega), byteToUInt16_uInt16ToByte, ih _ (by omega)]

theorem lookupTargets_of_lt (members : List (List UInt8)) (idxs : List UInt16)
    (h : ∀ i ∈ idxs, i.toNat < members.length) :
    lookupTargets members idxs = .ok (idxs.map fun i => members.getD i.toNat []) := by
  induction idxs with
  | nil => rfl
  | cons i rest ih =>
    have hi := h i List.mem_cons_self
    rw [lookupTargets, List.getElem?_eq_getElem hi,
      ih (fun j hj => h j (List.mem_cons_of_mem i hj)), List.map_cons, List.getD_eq_getElem _ _ hi]
    rfl

section RoundTrip

variable {Address : Type}

/-- `ParseRewardTransaction` reads back what `GenerateReward` writes: the group seed, the members
at the indexes (as `uint16`), the block hash and the pack fee. -/
theorem parseRewardTransaction_generateReward {groupMembers : Hash → Option (List (List UInt8))}
    {targetIds : List Int32} {blockHash gSeed : Hash} {totalValue packFee : UInt64}
    {raw : RawTransaction Address} {members : List (List UInt8)}
    (hgen : GenerateReward targetIds blockHash gSeed totalValue packFee = .ok raw)
    (hgroup : groupMembers gSeed = some members)
    (hidx : ∀ idIdx ∈ targetIds, idIdx.toUInt32.toUInt16.toNat < members.length) :
    ParseRewardTransaction groupMembers raw =
      .ok ⟨gSeed, targetIds.map (fun idIdx => members.getD idIdx.toUInt32.toUInt16.toNat []),
        blockHash, packFee⟩ := by
  unfold GenerateReward at hgen
  split_ifs at hgen
  cases hgen
  let idxs := targetIds.map fun idIdx => idIdx.toUInt32.toUInt16
  -- the three reads of the header, each filled by what was written
  have hseed := @Bytes.read_append (List.replicate HashLength 0) gSeed.bytes
    (Uint64ToByte packFee ++ encodeTargetIdxs targetIds) (by simp [gSeed.length_eq])
    (List.ne_nil_of_length_pos (by simp [gSeed.length_eq, HashLength]))
  have hfee := @Bytes.read_append (List.replicate 8 0) (Uint64ToByte packFee)
    (encodeTargetIdxs targetIds) (by simp [Uint64ToByte])
    (List.ne_nil_of_length_pos (by simp [Uint64ToByte]))
  have hidxs : readTargetIdxs [0, 0] (encodeTargetIdxs targetIds) = idxs := by
    have hmap : (targetIds.map fun idIdx => UInt16ToByte idIdx.toUInt32.toUInt16) =
        idxs.map UInt16ToByte := by simp [idxs]
    rw [encodeTargetIdxs, hmap]
    exact readTargetIdxs_encode idxs [0, 0] rfl
  have hlookup : lookupTargets members idxs =
      .ok (targetIds.map fun idIdx => members.getD idIdx.toUInt32.toUInt16.toNat []) := by
    rw [lookupTargets_of_lt members idxs (by simpa [idxs] using hidx), List.map_map]
    rfl
  simp only [ParseRewardTransaction, List.append_assoc, List.cons_append, List.nil_append,
    Bytes.readByte,
    rewardVersion, ne_eq, not_true_eq_false, if_false, hseed, hfee, hidxs, bytesToHash_bytes,
    hgroup, hlookup, RawTransaction.Payload, byteToUint64_uint64ToByte]
  rfl

/-- A reward to the members at the indexes `0, 1` of a group of two: parsing gives back the seed,
both members, the block hash and the pack fee. -/
theorem parseRewardTransaction_of_two_targets :
    ∃ raw : RawTransaction ℕ,
      GenerateReward [0, 1] (BytesToHash [7]) (BytesToHash [9]) 10 3 = .ok raw ∧
        ParseRewardTransaction (fun _ => some [[1], [2]]) raw =
          .ok ⟨BytesToHash [9], [[1], [2]], BytesToHash [7], 3⟩ := by
  obtain ⟨raw, hgen⟩ : ∃ raw : RawTransaction ℕ,
      GenerateReward [0, 1] (BytesToHash [7]) (BytesToHash [9]) 10 3 = .ok raw := ⟨_, rfl⟩
  have hgroup : (fun _ : Hash => some [[(1 : UInt8)], [2]]) (BytesToHash [9]) = some [[1], [2]] :=
    rfl
  -- both indexes are within the group
  have hidx : ∀ idIdx ∈ ([0, 1] : List Int32),
      idIdx.toUInt32.toUInt16.toNat < [[(1 : UInt8)], [2]].length := by
    intro i hi
    simp only [List.mem_cons, List.not_mem_nil, or_false] at hi
    rcases hi with rfl | rfl
    · show 0 < 2
      decide
    · show 1 < 2
      decide
  refine ⟨raw, hgen, ?_⟩
  rw [parseRewardTransaction_generateReward hgen hgroup hidx]
  rfl

/-- The header alone parses: with no index after the fee the target loop reads nothing, and
nothing asks for at least one target. -/
theorem parseRewardTransaction_accepts_no_targets
    {groupMembers : Hash → Option (List (List UInt8))} {gSeed : Hash} {packFee : UInt64}
    {raw : RawTransaction Address} {members : List (List UInt8)}
    (hextra : raw.extraData = [rewardVersion] ++ gSeed.bytes ++ Uint64ToByte packFee)
    (hgroup : groupMembers gSeed = some members) :
    ParseRewardTransaction groupMembers raw = .ok ⟨gSeed, [], BytesToHash raw.Payload, packFee⟩ := by
  have hseed := @Bytes.read_append (List.replicate HashLength 0) gSeed.bytes
    (Uint64ToByte packFee) (by simp [gSeed.length_eq])
    (List.ne_nil_of_length_pos (by simp [gSeed.length_eq, HashLength]))
  have hfee := @Bytes.read_append (List.replicate 8 0) (Uint64ToByte packFee) []
    (by simp [Uint64ToByte]) (List.ne_nil_of_length_pos (by simp [Uint64ToByte]))
  rw [List.append_nil] at hfee
  simp only [ParseRewardTransaction, hextra, List.cons_append, List.nil_append,
    Bytes.readByte, rewardVersion, ne_eq, not_true_eq_false, if_false, hseed, hfee,
    readTargetIdxs_nil, bytesToHash_bytes, hgroup, byteToUint64_uint64ToByte]
  rfl

/-- A transaction whose extra data is the version, a seed and a zero fee, and nothing else. -/
theorem parseRewardTransaction_header_only :
    let raw : RawTransaction ℕ := ⟨List.replicate 32 4, some 0, 0, none, TxType.reward.code, some 0,
      some 0, [rewardVersion] ++ (BytesToHash [9]).bytes ++ Uint64ToByte 0, none, none⟩
    raw.extraData.length = 41 ∧
      ParseRewardTransaction (fun _ => some [[1], [2]]) raw =
        .ok ⟨BytesToHash [9], [], BytesToHash (List.replicate 32 4), 0⟩ :=
  ⟨by decide, parseRewardTransaction_accepts_no_targets rfl rfl⟩

end RoundTrip

end Zvchain
