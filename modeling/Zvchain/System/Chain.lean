import Zvchain.Core.MinerOperation
import Zvchain.Lib.Transition

/-!
# The account state of the chain as a transition system

The miner code changes the account state at four entry points: the operation of a transaction
(`ExecuteOperation`), the freeze and the penalty that the group routine asks for (`MinerFrozen`,
`MinerPenalty`), and the guard expiry after each block (`GuardNodesCheck`).  A step is a run of one
of them that returns; a panic stops the node, so it is no step.  The stake platform and the living
groups (`MinerEnv`) may differ from step to step.

The initial states are those `insertGenesisBlock` leaves, from the empty state, for genesis data
whose guard addresses are none of the genesis members (`GuardAddress()` and the genesis group are
disjoint) and whose group is small enough that the genesis supply fits in a `uint64`.
-/

namespace Zvchain

variable {Address : Type} [DecidableEq Address] [Zero Address]

/-- The genesis data the code is built with: the guards are no members, and the group is not
larger than a million members. -/
structure GenesisInfo.Valid (info : GenesisInfo Address) : Prop where
  guards_not_members : ∀ mem ∈ info.members, mem.id ∉ info.guards
  members_small : info.members.length < 2 ^ 20

/-- An initial state: what the genesis block leaves. -/
def Init (s : State Address) : Prop :=
  ∃ (env : MinerEnv Address) (info : GenesisInfo Address), info.Valid ∧
    (insertGenesisBlock env info).run State.empty = .ok () s

/-- One step of the account state through the miner code. -/
inductive Step : State Address → State Address → Prop
  | executeOperation (env : MinerEnv Address) (op : MinerOp Address) (hv : op.Valid)
      {s s' : State Address} {r : Result} (h : (ExecuteOperation env op).run s = .ok r s') :
      Step s s'
  | minerFrozen (addr : Address) (height : UInt64) {s s' : State Address} {r : Result}
      (h : (MinerFrozen addr height).run s = .ok r s') : Step s s'
  | minerPenalty (msg : PunishmentMsg Address) (height : UInt64) {s s' : State Address}
      {r : Result} (h : (MinerPenalty msg height).run s = .ok r s') : Step s s'
  | guardNodesCheck (order : List Address) (height : UInt64) {s s' : State Address}
      (h : (GuardNodesCheck order height).run s = .ok () s') : Step s s'

/-- The account states the chain can reach. -/
def Reachable (s : State Address) : Prop :=
  Transition.Reachable Init Step s

/-- The account states the chain reaches in `n` steps. -/
def ReachableIn (n : ℕ) (s : State Address) : Prop :=
  Transition.ReachableIn Init Step n s

end Zvchain
