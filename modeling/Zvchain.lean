import Zvchain.Lib.Transition
import Zvchain.Lib.Word64
import Zvchain.Types.Miner
import Zvchain.Core.State
import Zvchain.Core.MinerBase
import Zvchain.Core.MinerNode
import Zvchain.Params
import Zvchain.Core.MinerOperation
import Zvchain.Lib.StateProc
import Zvchain.Spec.Helpers
import Zvchain.Spec.Stake
import Zvchain.Consensus.Punishment
import Zvchain.Lib.Tally
import Zvchain.Spec.Tickets
import Zvchain.Spec.Guards
import Zvchain.Lib.Bytes
import Zvchain.Types.Transaction
import Zvchain.Core.Rewards
import Zvchain.Core.Emission
import Zvchain.Core.TxValidate
import Zvchain.Storage.AccountDB
import Zvchain.Storage.Journal
import Zvchain.Lib.Pratt
import Zvchain.Crypto.Bncurve
import Zvchain.Lib.Lagrange
import Zvchain.Crypto.Seckey
import Zvchain.Crypto.Sig
import Zvchain.Lib.SortedSet
import Zvchain.Lib.GoMap
import Zvchain.Lib.SliceHeap
import Zvchain.Core.SimpleContainer
import Zvchain.Core.PendingInvariant
import Zvchain.Core.PoolInvariant
import Zvchain.Core.PoolRead
import Zvchain.Types.Block
import Zvchain.Core.ForkChoice
import Zvchain.Core.BlockBody
import Zvchain.Common.Prque
import Zvchain.Core.PruneHeights
import Zvchain.Consensus.VerifyContext
import Zvchain.Types.Epoch
import Zvchain.Lib.ListLoop
import Zvchain.Core.GroupPool
import Zvchain.Core.Checkpoint
import Zvchain.Storage.Trie
import Zvchain.Lib.Entries
import Zvchain.Storage.TrieUpdate
import Zvchain.Spec.TrieRead
import Zvchain.Spec.TrieWrite
import Zvchain.Lib.WeightedPick
import Zvchain.Consensus.Selector
import Zvchain.Lib.ChunkQueue
import Zvchain.Network.Peer
import Zvchain.Consensus.GroupSelector
import Zvchain.Core.StatePrune
