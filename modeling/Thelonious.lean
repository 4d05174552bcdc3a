import Thelonious.Lib.Iteration
import Thelonious.Lib.BigEndian
import Thelonious.Lib.Radix
import Thelonious.Lib.RadixLaws
import Thelonious.Lib.RadixContent
import Thelonious.Lib.RadixEntries
import Thelonious.Util.Value
import Thelonious.Util.Rlp
import Thelonious.Util.RlpRoundTrip
import Thelonious.Util.Plain
import Thelonious.Util.Nesting
import Thelonious.Util.RlpLaws
import Thelonious.Util.Sha3
import Thelonious.Trie.Encoding
import Thelonious.Lib.AssocMap
import Thelonious.Lib.ParentForest
import Thelonious.Lib.Ancestry
import Thelonious.Trie.Cache
import Thelonious.Trie.Trie
import Thelonious.Trie.Commitment
import Thelonious.Trie.Stored
import Thelonious.Trie.Insertion
import Thelonious.Trie.Operations
import Thelonious.Trie.RootContent
import Thelonious.Trie.Deletion
import Thelonious.Trie.Runs
import Thelonious.Trie.Durability
import Thelonious.Trie.Copies
import Thelonious.Trie.AbsentKeys
import Thelonious.Trie.Iterator
import Thelonious.Trie.Reading
import Thelonious.Trie.LongValues
import Thelonious.Util.Big
import Thelonious.State.StateObject
import Thelonious.State.World
import Thelonious.State.Ledger
import Thelonious.State.Update
import Thelonious.Vm.OpCode
import Thelonious.Vm.Instruction
import Thelonious.Vm.Machine
import Thelonious.Vm.Deeds
import Thelonious.Vm.Effects
import Thelonious.Vm.Gas
import Thelonious.Vm.Balances
import Thelonious.Vm.Tracking
import Thelonious.Chain.Block
import Thelonious.Chain.StateTransition
import Thelonious.Chain.Runs
import Thelonious.Chain.Money
import Thelonious.Chain.Reverts
import Thelonious.Chain.PostedGas
import Thelonious.Chain.Refund
import Thelonious.Chain.Solvency
import Thelonious.Chain.ProcessTransactions
import Thelonious.Chain.GasLimit
import Thelonious.Chain.Fees
import Thelonious.Chain.Admission
import Thelonious.Chain.Serialization
import Thelonious.Chain.TxSha
import Thelonious.Chain.ChainManager
import Thelonious.Chain.Links
import Thelonious.Chain.Reorganisation
import Thelonious.Chain.Height
import Thelonious.Chain.Lineage
import Thelonious.Chain.TotalDifficulty
import Thelonious.Chain.Exactness
import Thelonious.Chain.Rounds
import Thelonious.Chain.Definedness
import Thelonious.Chain.Forks
import Thelonious.Chain.HeaviestChain
import Thelonious.Chain.WorkingTree
import Thelonious.Chain.Interleaving
import Thelonious.State.TraversalOrder
import Thelonious.Chain.CallStack
import Thelonious.Chain.CallValue
import Thelonious.Chain.Restart
import Thelonious.Chain.Ancestors
import Thelonious.Chain.BlockIdentity
import Thelonious.Chain.Rewards
import Thelonious.Chain.BlockPool
import Thelonious.Chain.HashPool
import Thelonious.Chain.Integers
import Thelonious.Chain.Difficulty
import Thelonious.Chain.RoundRobin
import Thelonious.Chain.TxPool
import Thelonious.React.Reactor
import Thelonious.React.Subscribers
import Thelonious.Wire.Messaging
import Thelonious.Vm.Arithmetic
import Thelonious.Vm.CreateAddress
import Thelonious.Vm.MemoryGas
import Thelonious.Vm.RlpWords
