import Thelonious.Chain.ChainManager
import Thelonious.Chain.EthModel
import Thelonious.Chain.ProcessTransactions
import Thelonious.Chain.TxSha

/-!
# The chain manager with its block manager

`ProcessWithParent` and the functions around it, under `EthModel`.  Unlike in
`Chain.ChainManager` the processor is the one of the node, and it changes blocks:
`ProcessTransactions` writes the `GasUsed` of the parent.  A parent that comes from
the database is a copy, but one in the working tree or the working chain is the
object that is kept there.  So blocks live on a heap like links do.

Blocks and their infos have tables of their own, apart from `db`, where the nodes of
the tries and the code are.  Of an info only the total difficulty is kept, since
nothing else is read here.  `none` is a panic, or a loop that does not end.
-/

namespace Thelonious

abbrev BlockRef := Nat

/-- A block that was looked up: a copy from the database, or an object that is in use. -/
inductive Found
  | stored (block : Block)
  | working (ref : BlockRef)

structure Validator.Link where
  block : BlockRef
  td : Option Int
  parent : Option LinkRef

/-- The state of both managers.  `transState` and `lastAttemptedBlock` are the block
manager's. -/
structure Validator where
  genesisBlock : Block
  td : Int
  currentBlock : BlockRef
  currentBlockHash : Bytes
  workingTree : AssocMap Bytes LinkRef
  workingChain : List LinkRef
  latestCheckPointHash : Bytes
  records : AssocMap Bytes Block
  infos : AssocMap Bytes Int
  db : Database
  blocks : BlockRef → Block
  nextBlock : BlockRef
  links : LinkRef → Validator.Link
  nextLink : LinkRef
  transState : Option World
  lastAttemptedBlock : Option BlockRef

/-- What the managers are built from. -/
structure Protocol where
  model : EthModel
  manager : BlockManager

/-- `block.GasUsed = gasUsed` -/
def Block.setGasUsed (gasUsed : Int) (block : Block) : Block :=
  { block with header := { block.header with gasUsed := gasUsed } }

/-- The headers whose difficulties `CalcTotalDiff` adds to the one of the parent. -/
def Block.counted (block : Block) : List Header := block.uncles ++ [block.header]

/-- `Value.Cmp` of the roots of tries, which are strings or byte slices. -/
def Value.cmpRoot : Value → Value → Bool
  | .bytes root, .bytes other => root = other
  | .str root, .str other => root = other
  | _, _ => false

/-! ### Rewards -/

/-- `BlockReward` -/
def blockReward : Int := 1500000000000000000

/-- `CalcGasLimit`, which returns at its first line. -/
def calcGasLimit : Int := 100000000000000000000000

section Rewards

variable (sha3Bin : Bytes → Bytes) (numberOf : Bytes → Option Int) (parent : Block) (db : Database)

/-- The message of the error for an uncle, if there is one. -/
def uncleMessage (nonces : List Bytes) (uncle : Header) : Option String :=
  if uncle.nonce ∈ nonces then some "Uncle not unique"
  else
    match numberOf uncle.prevHash with
    | none => some "Uncle's parent unknown"
    | some number =>
        if number < parent.header.number - 6 then some "Uncle too old"
        else if uncle.hash sha3Bin ∈ parent.uncles.map (Header.hash sha3Bin) then
          some "Uncle in chain"
        else none

/-- The loop of `AccumelateRewards`: the reward of the coinbase, or the message of an error. -/
def rewardUncles (nonces : List Bytes) (reward : Int) (w : World) :
    List Header → Option (World × Except String Int)
  | [] => some (w, .ok reward)
  | uncle :: uncles =>
      match uncleMessage sha3Bin numberOf parent nonces uncle with
      | some message => some (w, .error message)
      | none => do
          let (account, w) ← w.getOrNewStateObject db uncle.coinbase
          rewardUncles (uncle.nonce :: nonces) (reward + blockReward / 32)
            (w.modify account (.addAmount (blockReward * 15 / 16))) uncles

/-- `AccumelateRewards`, with the message of an error; `numberOf` has the numbers of the
blocks that the chain manager knows. -/
def accumelateRewards (block : Block) (w : World) : Option (World × Option String) := do
  match ← rewardUncles sha3Bin numberOf parent db [block.header.nonce] blockReward w
      block.uncles with
  | (w, .error message) => return (w, some message)
  | (w, .ok reward) =>
      let (account, w) ← w.getOrNewStateObject db block.header.coinbase
      return (w.modify account (.addAmount reward), none)

end Rewards

namespace Validator

section Reading

variable (sha3Bin : Bytes → Bytes) (v : Validator)

def hashOf (ref : BlockRef) : Bytes := (v.blocks ref).hash sha3Bin

def contents : Found → Block
  | .stored block => block
  | .working ref => v.blocks ref

/-- The block of a link. -/
def blockOf (l : LinkRef) : Block := v.blocks (v.links l).block

/-- The first link of the working chain with the hash. -/
def findWorking (hash : Bytes) : Option LinkRef :=
  v.workingChain.find? fun l => v.hashOf sha3Bin (v.links l).block = hash

/-- `GetBlockCanonical` -/
def getBlockCanonical (hash : Bytes) : Option Block := AList.lookup hash v.records

/-- `GetBlockWorking` -/
def getBlockWorking (hash : Bytes) : Option BlockRef :=
  match AList.lookup hash v.workingTree with
  | some l => some (v.links l).block
  | none => (v.findWorking sha3Bin hash).map fun l => (v.links l).block

/-- `GetBlock` -/
def getBlock (hash : Bytes) : Option Found :=
  match v.getBlockCanonical hash with
  | some block => some (.stored block)
  | none => (v.getBlockWorking sha3Bin hash).map .working

/-- The block that `GetBlock` returns. -/
def lookup (hash : Bytes) : Option Block := (v.getBlock sha3Bin hash).map v.contents

/-- The `TD` of `BlockInfo`, which is nil for a link that has not been processed. -/
def blockInfoTD (hash : Bytes) : Option Int :=
  match AList.lookup hash v.infos with
  | some td => some td
  | none =>
      match AList.lookup hash v.workingTree with
      | some l => (v.links l).td
      | none =>
          match v.findWorking sha3Bin hash with
          | some l => (v.links l).td
          | none => some 0

/-- `CalcTotalDiff`; the inner `none` is its error. -/
def calcTotalDiff (block : Block) : Option (Option Int) :=
  match v.lookup sha3Bin block.header.prevHash with
  | none => some none
  | some parent => do
      let parentTd ← v.blockInfoTD sha3Bin (parent.hash sha3Bin)
      return some (parentTd + (block.counted.map Header.difficulty).sum)

/-- `detectFork` -/
def detectFork (oldest : Block) : Bool :=
  match v.lookup sha3Bin oldest.header.prevHash with
  | none => false
  | some branchParent => v.hashOf sha3Bin v.currentBlock ≠ branchParent.hash sha3Bin

/-- The loop of `GetBlockByNumber` for some rounds; the outer `none` is a loop that goes on. -/
def findNumber (num : UInt64) : Nat → Block → Option (Option Block)
  | 0, _ => none
  | rounds + 1, block =>
      if uint64 block.header.number = num.toNat then some (some block)
      else
        match v.lookup sha3Bin block.header.prevHash with
        | none => some none
        | some parent => findNumber num rounds parent

/-- `GetBlockByNumber` -/
def getBlockByNumber (num : UInt64) (rounds : Nat) : Option (Option Block) := do
  match ← v.findNumber sha3Bin num rounds (v.blocks v.currentBlock) with
  | none => return none
  | some block =>
      return if uint64 block.header.number = 0 ∧ num ≠ 0 then none else some block

/-- The state that a block on this parent is processed on. -/
def stateFor (parent : Found) : World :=
  let fresh := World.atRoot (v.contents parent).header.root
  match v.transState, v.lastAttemptedBlock with
  | some transState, some last =>
      if v.hashOf sha3Bin last = (v.contents parent).hash sha3Bin then transState else fresh
  | _, _ => fresh

end Reading

/-! ### Writing -/

section Writing

variable (sha3Bin : Bytes → Bytes) (v : Validator)

/-- Writes through the pointer to a block. -/
def setGasUsed (gasUsed : Int) : Found → Validator
  | .stored _ => v
  | .working ref =>
      { v with blocks := Function.update v.blocks ref ((v.blocks ref).setGasUsed gasUsed) }

def setDb (db : Database) : Validator := { v with db := db }

def setTransState (transState : Option World) : Validator := { v with transState := transState }

def attempt (ref : BlockRef) : Validator := { v with lastAttemptedBlock := some ref }

def setWorkingChain (chain : List LinkRef) : Validator := { v with workingChain := chain }

def setWorkingTree (tree : AssocMap Bytes LinkRef) : Validator := { v with workingTree := tree }

def setTd (td : Option Int) (l : LinkRef) : Validator :=
  { v with links := Function.update v.links l { v.links l with td := td } }

/-- Writes through a difficulty that several links share. -/
def shareTd (td : Int) (shared : List LinkRef) : Validator :=
  { v with links := fun l =>
      if l ∈ shared then { v.links l with td := some td } else v.links l }

def setParent (parent : Option LinkRef) (l : LinkRef) : Validator :=
  { v with links := Function.update v.links l { v.links l with parent := parent } }

def setHead (ref : BlockRef) (hash : Bytes) : Validator :=
  { v with currentBlock := ref, currentBlockHash := hash }

/-- The object of a block that was looked up; a copy is a new one. -/
def adopt : Found → Validator × BlockRef
  | .stored block =>
      ({ v with
          blocks := Function.update v.blocks v.nextBlock block
          nextBlock := v.nextBlock + 1 }, v.nextBlock)
  | .working ref => (v, ref)

/-- `&link{block, nil, nil, nil}` -/
def newLink (ref : BlockRef) : Validator × LinkRef :=
  ({ v with
      links := Function.update v.links v.nextLink ⟨ref, none, none⟩
      nextLink := v.nextLink + 1 }, v.nextLink)

/-- `add`, with `writeBlockInfo` -/
def add (ref : BlockRef) : Validator :=
  let hash := v.hashOf sha3Bin ref
  { v with
    infos := v.infos.insert hash v.td
    currentBlock := ref
    currentBlockHash := hash
    records := v.records.insert hash (v.blocks ref) }

/-- `SetTotalDifficulty` -/
def setTotalDifficulty (td : Int) : Validator := { v with td := td }

end Writing

/-- `NewChain` -/
def newChain (v : Validator) : List Found → Validator × List LinkRef
  | [] => (v, [])
  | block :: blocks =>
      let (v, ref) := v.adopt block
      let (v, l) := v.newLink ref
      let (v, chain) := newChain v blocks
      (v, l :: chain)

/-- `NewChain` of blocks that come from outside. -/
def load (v : Validator) (blocks : List Block) : Validator × List LinkRef :=
  v.newChain (blocks.map .stored)

/-- `NewChainManager` and `NewBlockManager` on an empty database. -/
def boot (sha3Bin : Bytes → Bytes) (genesis : Block) (db : Database) : Validator :=
  let v : Validator :=
    { genesisBlock := genesis, td := 0, currentBlock := 0,
      currentBlockHash := genesis.hash sha3Bin, workingTree := ∅, workingChain := [],
      latestCheckPointHash := genesis.hash sha3Bin, records := ∅, infos := ∅, db := db,
      blocks := fun _ => genesis, nextBlock := 1, links := fun _ => ⟨0, none, none⟩,
      nextLink := 0, transState := none, lastAttemptedBlock := none }
  v.add sha3Bin 0

variable (protocol : Protocol)

/-! ### Processing a block -/

section Processing

/-- The end of `ProcessWithParent`: the total difficulty, and where the state is kept. -/
def settle (v : Validator) (ref : BlockRef) (w : World) :
    Option (Validator × Except BlockErr (Option Int)) := do
  match ← v.calcTotalDiff protocol.model.sha3Bin (v.blocks ref) with
  | none => return (v.setTransState (some w), .ok none)
  | some td =>
      if v.td < td then
        let (db, _) := w.sync v.db (protocol.manager.addresses w)
        return ((v.setDb db).setTransState none, .ok (some td))
      else return (v.setTransState (some w), .ok (some td))

/-- `ProcessWithParent` from the rewards on. -/
def finalize (v : Validator) (ref : BlockRef) (parent : Found) (w : World) :
    Option (Validator × Except BlockErr (Option Int)) := do
  let block := v.blocks ref
  let sha3Bin := protocol.model.sha3Bin
  let numberOf := fun hash => (v.lookup sha3Bin hash).map fun known => known.header.number
  let (w, message) ← accumelateRewards sha3Bin numberOf (v.contents parent) v.db block w
  match message with
  | some message => return (v.setTransState none, .error (.uncleErr message))
  | none =>
      let (db, w) ← w.update sha3Bin v.db protocol.manager.depth (protocol.manager.addresses w)
        (protocol.manager.slots w)
      let v := v.setDb db
      if block.header.root.cmpRoot w.state.trie.root then v.settle protocol ref w
      else
        return (v.setTransState none, .error (.merkleRootErr block.header.root w.state.trie.root))

/-- `ProcessWithParent` from the comparison of the receipts on. -/
def check (v : Validator) (ref : BlockRef) (parent : Found) (w : World) (receipts : List Receipt) :
    Option (Validator × Except BlockErr (Option Int)) := do
  let block := v.blocks ref
  let sha3Bin := protocol.model.sha3Bin
  let txSha ← createTxSha sha3Bin v.db receipts
  if txSha ≠ block.header.txSha then
    return (v.setTransState none, .error (.txShaErr block.header.txSha txSha))
  let prevBlock := (v.lookup sha3Bin block.header.prevHash).map Block.header
  match ← protocol.model.validateBlock prevBlock block with
  | .error err => return (v.setTransState none, .error err)
  | .ok () => v.finalize protocol ref parent w

/-- `ApplyDiff`, as far as `ProcessTransactions` gets. -/
def applyDiff (db : Database) (block : Block) (w : World) : Option Processing := do
  let (coinbase, w) ← w.getOrNewStateObject db block.header.coinbase
  let w := w.modify coinbase (.setGasPool calcGasLimit)
  return protocol.manager.processTransactions block db w block.transactions

/-- `ProcessWithParent`: the total difficulty, which is nil when `CalcTotalDiff` fails, or an
error. -/
def processWithParent (v : Validator) (ref : BlockRef) (parent : Found) :
    Option (Validator × Except BlockErr (Option Int)) := do
  let w := v.stateFor protocol.model.sha3Bin parent
  let v := v.attempt ref
  match ← applyDiff protocol v.db (v.blocks ref) w with
  | .returned progress unhandled =>
      let v := (v.setGasUsed progress.totalUsedGas parent).setDb progress.db
      if unhandled = [] then v.check protocol ref parent progress.world progress.receipts
      else return (v.setTransState none, .error .gasLimitErr)
  | .mismatch => return (v.setTransState none, .error .receiptFailed)
  | _ => none

/-- The loop body of `TestChain`: the total difficulty of the block, or an error. -/
def processLink (v : Validator) (l : LinkRef) : Option (Validator × Except BlockErr (Option Int)) :=
  let block := (v.links l).block
  match v.getBlock protocol.model.sha3Bin (v.blocks block).header.prevHash with
  | none => some (v, .error (.brokenChain (v.blocks block).header.prevHash))
  | some parent => do
      match ← v.processWithParent protocol block parent with
      | (v, .ok td) => return (v.setTd td l, .ok td)
      | (v, .error err) => return (v, .error err)

/-- The loop of `TestChain`, from a total difficulty on. -/
def processChain (v : Validator) (td : Option Int) :
    List LinkRef → Option (Validator × Except BlockErr (Option Int))
  | [] => some (v, .ok td)
  | l :: rest => do
      match ← v.processLink protocol l with
      | (v, .ok td) => processChain v td rest
      | (v, .error err) => return (v, .error err)

end Processing

/-! ### The working tree -/

/-- The parent of a link that joins the tree, and its total difficulty.  `before` are
the links of the chain that have joined already.  A nil difficulty is a panic; the
inner `none` is the chain without a known parent. -/
def attachment (v : Validator) (before : List LinkRef) (block : Block) :
    Option (Option (Option LinkRef × Int)) :=
  match before.getLast? with
  | some f => do
      let td ← (v.links f).td
      return some (some f, td + block.header.difficulty)
  | none =>
      match AList.lookup block.header.prevHash v.workingTree with
      | some p => do
          let td ← (v.links p).td
          return some (some p, td + block.header.difficulty)
      | none =>
          match v.getBlockCanonical block.header.prevHash with
          | none => some none
          -- `Block.BlockInfo` only looks at the database, and the difficulty that is added is
          -- the one of the parent
          | some b =>
              let parentDiff := (AList.lookup (b.hash protocol.model.sha3Bin) v.infos).getD 0
              some (some (none, parentDiff + b.header.difficulty))

/-- The link `l` joins the tree after those in `before`.  They all point to `base`, so
`base.Add` changes the difficulty of all of them. -/
def joinLink (v : Validator) (before : List LinkRef) (l : LinkRef) (parent : Option LinkRef)
    (base : Int) : Validator :=
  let joined := (v.setParent parent l).shareTd base (before ++ [l])
  joined.setWorkingTree
    (joined.workingTree.insert (v.hashOf protocol.model.sha3Bin (v.links l).block) l)

/-- The loop of `addChainToWorkingTree`, with the chain as it is left.  A link that is
removed from the list has no successor: the loop ends there. -/
def joinTree (v : Validator) (before : List LinkRef) :
    List LinkRef → Option (Validator × List LinkRef)
  | [] => some (v, before)
  | l :: rest =>
      let block := v.blocks (v.links l).block
      if (AList.lookup (block.hash protocol.model.sha3Bin) v.workingTree).isSome then
        some (v, before ++ rest)
      else do
        match ← v.attachment protocol before block with
        | none => pure (v, before ++ l :: rest)
        | some (parent, base) =>
            joinTree (v.joinLink protocol before l parent base) (before ++ [l]) rest

/-- A fork is added to the tree by `addChainToWorkingTree`. -/
def recordFork (v : Validator) (fork : Bool) (chain : List LinkRef) :
    Option (Validator × List LinkRef) :=
  if fork then v.joinTree protocol [] chain else some (v, chain)

/-! ### Testing and inserting chains -/

/-- `TestChain`, with the chain as it is left. -/
def testChain (v : Validator) (chain : List LinkRef) :
    Option (Validator × List LinkRef × Verdict) := do
  let front ← chain.head?
  let v := v.setWorkingChain chain
  let fork := v.detectFork protocol.model.sha3Bin (v.blocks (v.links front).block)
  match ← v.processChain protocol none chain with
  | (v, .error _) => return (v.setWorkingChain [], chain, .failed)
  | (v, .ok td) =>
      let (v, chain) ← v.recordFork protocol fork chain
      let td ← td
      return (v.setWorkingChain [], chain, if td ≤ v.td then .tooLight else .accepted)

/-- `insertChain`: each block of the chain becomes canonical. -/
def lengthen (v : Validator) : List LinkRef → Option Validator
  | [] => some v
  | l :: rest => do
      let td ← (v.links l).td
      lengthen ((v.setTotalDifficulty td).add protocol.model.sha3Bin (v.links l).block) rest

/-- `InsertChain` -/
def insertChainWith (reOrg : Validator → List LinkRef → Option Validator) (v : Validator)
    (chain : List LinkRef) : Option Validator := do
  let sha3Bin := protocol.model.sha3Bin
  let front ← chain.head?
  let back ← chain.getLast?
  let branchParent ← v.lookup sha3Bin (v.blocks (v.links front).block).header.prevHash
  if v.hashOf sha3Bin v.currentBlock = branchParent.hash sha3Bin then v.lengthen protocol chain
  else do
    let td ← (v.links back).td
    if v.td < td then reOrg v chain else some v

/-- The links from the one off the canonical chain up to `l`. -/
def lineage (v : Validator) : Nat → LinkRef → Option (List LinkRef) :=
  ParentForest.pathTo fun l => (v.links l).parent

/-- The blocks above the ancestor up to `b`.  It is a panic to walk past genesis. -/
def blocksAbove (v : Validator) (ancestorHash : Bytes) : Nat → Found → Option (List Found)
  | 0, _ => none
  | fuel + 1, b =>
      if (v.contents b).hash protocol.model.sha3Bin = ancestorHash then some []
      else do
        let parent ← v.getBlock protocol.model.sha3Bin (v.contents b).header.prevHash
        let blocks ← blocksAbove v ancestorHash fuel parent
        return blocks ++ [b]

/-- The number of blocks that a walk can meet. -/
def known (v : Validator) : Nat := v.records.keys.length + v.workingTree.keys.length

/-- Deletes the links from the working tree. -/
def forget (v : Validator) (path : List LinkRef) : Validator :=
  let delete (tree : AssocMap Bytes LinkRef) (l : LinkRef) :=
    tree.erase (v.hashOf protocol.model.sha3Bin (v.links l).block)
  v.setWorkingTree (path.foldl delete v.workingTree)

/-- `reOrg` up to its first `TestChain`: the manager with the head at the branch point,
the new chain, the old head, and the hash of the branch point. -/
def revert (v : Validator) (chain : List LinkRef) :
    Option (Validator × List LinkRef × Block × Bytes) := do
  let back ← chain.getLast?
  let path ← v.lineage v.nextLink back
  let root ← path.head?
  let ancestorHash := (v.blocks (v.links root).block).header.prevHash
  let ancestor ← v.getBlockCanonical ancestorHash
  let oldHead ← v.getBlockCanonical v.currentBlockHash
  let (reverted, bchain) :=
    (v.forget protocol path).newChain (path.map fun l => .working (v.links l).block)
  let (reverted, ref) := reverted.adopt (.stored ancestor)
  return (reverted.setHead ref ancestorHash, bchain, oldHead, ancestorHash)

/-- The end of `reOrg`: the old canonical blocks are moved to the working tree. -/
def demote (v : Validator) (oldHead : Block) (ancestorHash : Bytes) : Option Validator := do
  let blocks ← v.blocksAbove protocol ancestorHash (v.known + 1) (.stored oldHead)
  let (v, bchain) := v.newChain blocks
  let (v, _, _) ← v.testChain protocol bchain
  return v

/-- `reOrg`.  Its head is the branch point when it calls `InsertChain`, which therefore
never calls `reOrg` again. -/
def reOrg (v : Validator) (chain : List LinkRef) : Option Validator := do
  let (reverted, bchain, oldHead, ancestorHash) ← v.revert protocol chain
  let (tested, bchain, verdict) ← reverted.testChain protocol bchain
  if verdict = .accepted then do
    let inserted ← tested.insertChainWith protocol (fun _ _ => none) bchain
    inserted.demote protocol oldHead ancestorHash
  else
    let (tested, ref) := tested.adopt (.stored oldHead)
    return tested.setHead ref v.currentBlockHash

/-- `InsertChain` -/
def insertChain (v : Validator) (chain : List LinkRef) : Option Validator :=
  v.insertChainWith protocol (reOrg protocol) chain

/-- What the block pool does with a list of blocks: `TestChain`, and `InsertChain` unless
there is an error other than a `TDError`. -/
def present (v : Validator) (blocks : List Block) : Option Validator := do
  let (v, chain) := v.load blocks
  let (v, chain, verdict) ← v.testChain protocol chain
  if verdict = .failed then return v else v.insertChain protocol chain

/-! ### Checkpoints and queries -/

/-- `CheckPoint`; `EthModel` does not accept one after the first. -/
def checkPoint (v : Validator) (proposed : Bytes) : Validator :=
  if v.latestCheckPointHash = v.genesisBlock.hash protocol.model.sha3Bin then
    { v with latestCheckPointHash := proposed }
  else v

/-- `ReceiveCheckPointBlock` -/
def receiveCheckPointBlock (v : Validator) (block : Block) : Validator :=
  if block.hash protocol.model.sha3Bin = v.latestCheckPointHash then
    let (v, ref) := v.adopt (.stored block)
    v.add protocol.model.sha3Bin ref
  else v

/-- What `GetMessages` leaves; the messages are not modelled.  `HasBlock` only looks at the
database, so the parent is a copy. -/
def getMessages (v : Validator) (block : Block) : Option Validator :=
  match v.getBlockCanonical block.header.prevHash with
  | none => some v
  | some parent => do
      let (v, ref) := v.adopt (.stored block)
      let v := v.attempt ref
      match ← applyDiff protocol v.db block (.atRoot parent.header.root) with
      | .returned progress _ => return v.setDb progress.db
      | .mismatch => return v
      | _ => none

/-- What happens to the managers. -/
inductive Action
  | present (blocks : List Block)
  | checkPoint (proposed : Bytes)
  | receiveCheckPointBlock (block : Block)
  | getMessages (block : Block)

/-- The blocks that come from outside with an action. -/
def Action.blocks : Action → List Block
  | .present blocks => blocks
  | .checkPoint _ => []
  | .receiveCheckPointBlock block | .getMessages block => [block]

def perform (v : Validator) : Action → Option Validator
  | .present blocks => v.present protocol blocks
  | .checkPoint proposed => some (v.checkPoint protocol proposed)
  | .receiveCheckPointBlock block => some (v.receiveCheckPointBlock protocol block)
  | .getMessages block => v.getMessages protocol block

/-- A run of actions. -/
def run (v : Validator) : List Action → Option Validator
  | [] => some v
  | action :: later => do
      let v ← v.perform protocol action
      run v later

end Validator

end Thelonious
