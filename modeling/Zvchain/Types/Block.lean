import Zvchain.Types.Transaction
import Zvchain.Lib.Bytes
import Zvchain.Params

/-!
# Block headers and their weight (`middleware/types/core.go`)

The weight of a block decides between forks.  `BlockWeight.Cmp` compares the accumulated `TotalQN`
first; from the fork ZIP001 on, the proof value normalised by the proposer's stake; then the proof
value itself; and from ZIP003 on, equal proof values by the block hash.  Both fork tests read the
heights of the two blocks, so blocks on the two sides of a fork height are compared by fewer
criteria.

Go's comparisons return `-1`, `0` or `1`; here they are an `Ordering`, and `if c != 0 { return c }`
is `Ordering.then`.  The normalised value is cached in the weight in Go; as it is a function of
the weight and the stake getter, it is computed on demand here.
-/

namespace Zvchain

/-- The fields of `types.BlockHeader` that the modelled functions read. -/
structure BlockHeader where
  hash : Hash
  height : UInt64
  preHash : Hash
  proveValue : List UInt8
  totalQN : UInt64
  castor : List UInt8
  group : Hash
  deriving DecidableEq, Repr

/-- `types.Block`: the header and the transactions. -/
structure Block (Address : Type) where
  header : BlockHeader
  transactions : List (RawTransaction Address)
  deriving DecidableEq, Repr

/-- `common.Hash.Big`: the hash as a big-endian number. -/
def Hash.Big (h : Hash) : ℕ := Bytes.ofBE h.bytes

/-- `types.BlockWeight`. -/
structure BlockWeight (Address : Type) where
  hash : Hash
  totalQN : UInt64
  pv : ℤ
  proposer : Address
  height : UInt64
  deriving DecidableEq, Repr

/-- `types.StakeGetter`: the stake of a proposer at a height. -/
abbrev StakeGetter (Address : Type) := Address → UInt64 → UInt64

/-- `float64(n)` of a `uint64`: `n` rounded to 53 significant bits, ties to even. -/
def float64OfUInt64 (n : UInt64) : ℕ :=
  let m := n.toNat
  if m < 2 ^ 53 then m
  else
    let s := Nat.log2 m + 1 - 53
    let q := m / 2 ^ s
    let r := m % 2 ^ s
    let q := if r > 2 ^ (s - 1) ∨ (r = 2 ^ (s - 1) ∧ q % 2 = 1) then q + 1 else q
    q * 2 ^ s

variable {Address : Type}

namespace BlockWeight

/-- `NewBlockWeight`, with `DefaultPVFunc` and `common.BytesToAddress`. -/
def NewBlockWeight (pvFunc : List UInt8 → ℤ) (bytesToAddress : List UInt8 → Address)
    (bh : BlockHeader) : BlockWeight Address :=
  ⟨bh.hash, bh.totalQN, pvFunc bh.proveValue, bytesToAddress bh.castor, bh.height⟩

/-- `normalizePV`: the proof value over the proposer's stake at the height before, `0` for no
stake. -/
def normalizePV (getter : StakeGetter Address) (bw : BlockWeight Address) : ℚ :=
  let stake := getter bw.proposer (bw.height - 1)
  if stake = 0 then 0 else (bw.pv : ℚ) / (float64OfUInt64 stake : ℚ)

/-- `Cmp` under the chain configuration and `DefaultStakeGetter`, which may be nil. -/
def Cmp (cfg : ChainConfig) (stakeGetter : Option (StakeGetter Address))
    (bw bw2 : BlockWeight Address) : Ordering :=
  if bw.totalQN > bw2.totalQN then .gt
  else if bw.totalQN < bw2.totalQN then .lt
  else
    let npvCmp : Ordering :=
      match stakeGetter with
      | some getter =>
        if cfg.IsZIP001 bw.height ∧ cfg.IsZIP001 bw2.height then
          compare (bw.normalizePV getter) (bw2.normalizePV getter)
        else .eq
      | none => .eq
    if npvCmp ≠ .eq then npvCmp
    else
      let pvCmp := compare bw.pv bw2.pv
      if pvCmp = .eq ∧ cfg.IsZIP003 bw.height ∧ cfg.IsZIP003 bw2.height then
        compare bw.hash.Big bw2.hash.Big
      else pvCmp

/-- `MoreWeight`. -/
def MoreWeight (cfg : ChainConfig) (stakeGetter : Option (StakeGetter Address))
    (bw bw2 : BlockWeight Address) : Bool :=
  bw.Cmp cfg stakeGetter bw2 = .gt

end BlockWeight

end Zvchain
