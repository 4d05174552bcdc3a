import Thelonious.Lib.AssocMap
import Thelonious.Lib.ParentForest
import Thelonious.Chain.Block

/-!
# The chain manager

The canonical blocks are those with a record in the database; the links of the
working tree are objects that point to each other, so they live on a heap.  The
block processor is a parameter: it has a state of its own, accepts a block or
not, and leaves blocks alone.  `none` is a panic.

`link.children` is left out, since nothing reads it.
-/

namespace Thelonious

/-- A block as the chain manager sees it: `hash` is `Hash()`, and of the uncles only the
difficulties matter. -/
structure ChainBlock where
  hash : Bytes
  prevHash : Bytes
  number : Nat
  difficulty : Nat
  uncles : List Nat
deriving DecidableEq, Repr

/-- The chain manager's view of a block. -/
def Block.chainBlock (sha3Bin : Bytes → Bytes) (block : Block) : ChainBlock where
  hash := block.hash sha3Bin
  prevHash := block.header.prevHash
  number := block.header.number.toNat
  difficulty := block.header.difficulty.toNat
  uncles := block.uncles.map fun uncle => uncle.difficulty.toNat

/-- What a block adds to the total difficulty. -/
def ChainBlock.weight (block : ChainBlock) : Nat := block.uncles.sum + block.difficulty

abbrev LinkRef := Nat

structure Link where
  block : ChainBlock
  td : Option Nat
  parent : Option LinkRef
deriving DecidableEq

structure BlockInfo where
  number : UInt64
  hash : Bytes
  parent : Bytes
  td : Nat
deriving DecidableEq

/-- The chain manager with its part of the database: `blocks` has the records under the
hash of a block, `infos` those under the hash with `Info` appended.  `processor` is the
state of the block processor. -/
structure ChainManager (σ : Type) where
  genesisBlock : ChainBlock
  td : Nat
  currentBlockNumber : UInt64
  currentBlock : ChainBlock
  currentBlockHash : Bytes
  workingTree : AssocMap Bytes LinkRef
  workingChain : List LinkRef
  latestCheckPointHash : Bytes
  waitingForCheckPoint : Bool
  blocks : AssocMap Bytes ChainBlock
  infos : AssocMap Bytes BlockInfo
  links : LinkRef → Link
  nextLink : LinkRef
  processor : σ

/-- The outcome of `TestChain`: no error, a `TDError`, or another error. -/
inductive Verdict
  | accepted
  | tooLight
  | failed
deriving DecidableEq

namespace ChainManager

variable {σ : Type}

section Reading

variable (m : ChainManager σ)

/-- The first link of the working chain with the hash. -/
def findWorking (hash : Bytes) : Option LinkRef :=
  m.workingChain.find? fun l => (m.links l).block.hash = hash

/-- `GetBlockCanonical` -/
def getBlockCanonical (hash : Bytes) : Option ChainBlock := AList.lookup hash m.blocks

/-- `GetBlockWorking` -/
def getBlockWorking (hash : Bytes) : Option ChainBlock :=
  match AList.lookup hash m.workingTree with
  | some l => some (m.links l).block
  | none => (m.findWorking hash).map fun l => (m.links l).block

/-- `GetBlock` -/
def getBlock (hash : Bytes) : Option ChainBlock :=
  match m.getBlockCanonical hash with
  | some block => some block
  | none => m.getBlockWorking hash

/-- The `TD` of `BlockInfo`, which is nil for a link that has not been processed. -/
def blockInfoTD (hash : Bytes) : Option Nat :=
  match AList.lookup hash m.infos with
  | some info => some info.td
  | none =>
      match AList.lookup hash m.workingTree with
      | some l => (m.links l).td
      | none =>
          match m.findWorking hash with
          | some l => (m.links l).td
          | none => some 0

/-- The `TD` of `Block.BlockInfo`, which only looks at the database. -/
def recordedTD (hash : Bytes) : Nat := ((AList.lookup hash m.infos).map BlockInfo.td).getD 0

/-- `CalcTotalDiff` of a block whose parent is known. -/
def calcTotalDiff (block : ChainBlock) : Option Nat := do
  let parent ← m.getBlock block.prevHash
  let parentTd ← m.blockInfoTD parent.hash
  return parentTd + block.weight

/-- `detectFork`, for the first block of the chain. -/
def detectFork (oldest : ChainBlock) : Bool :=
  match m.getBlock oldest.prevHash with
  | none => false
  | some branchParent => m.currentBlock.hash ≠ branchParent.hash

end Reading

/-! ### Writing to the database -/

/-- `writeBlockInfo` -/
def writeBlockInfo (m : ChainManager σ) (block : ChainBlock) : ChainManager σ :=
  let number := if block.number ≠ 0 then m.currentBlockNumber + 1 else m.currentBlockNumber
  { m with
    currentBlockNumber := number
    infos := m.infos.insert block.hash ⟨number, block.hash, block.prevHash, m.td⟩ }

/-- `add` -/
def add (m : ChainManager σ) (block : ChainBlock) : ChainManager σ :=
  let m := m.writeBlockInfo block
  { m with
    currentBlock := block
    currentBlockHash := block.hash
    blocks := m.blocks.insert block.hash block }

/-- `NewChainManager` on an empty database: `Reset` and the checkpoint at genesis. -/
def boot (genesis : ChainBlock) (processor : σ) : ChainManager σ :=
  let m : ChainManager σ :=
    { genesisBlock := genesis, td := 0, currentBlockNumber := 0, currentBlock := genesis,
      currentBlockHash := genesis.hash, workingTree := ∅, workingChain := [],
      latestCheckPointHash := genesis.hash, waitingForCheckPoint := false, blocks := ∅,
      infos := ∅, links := fun _ => ⟨genesis, none, none⟩, nextLink := 0,
      processor := processor }
  { m.add genesis with currentBlockNumber := .ofNat genesis.number }

/-- `SetTotalDifficulty` -/
def setTotalDifficulty (m : ChainManager σ) (td : Nat) : ChainManager σ := { m with td := td }

/-- `insertChain`: each block of the chain becomes canonical. -/
def lengthen (m : ChainManager σ) : List LinkRef → Option (ChainManager σ)
  | [] => some m
  | l :: rest => do
      let td ← (m.links l).td
      lengthen ((m.setTotalDifficulty td).add (m.links l).block) rest

/-! ### The working tree -/

/-- `&link{block, nil, nil, nil}` -/
def newLink (m : ChainManager σ) (block : ChainBlock) : ChainManager σ × LinkRef :=
  ({ m with
      links := Function.update m.links m.nextLink ⟨block, none, none⟩
      nextLink := m.nextLink + 1 }, m.nextLink)

/-- `NewChain` -/
def newChain (m : ChainManager σ) : List ChainBlock → ChainManager σ × List LinkRef
  | [] => (m, [])
  | block :: blocks =>
      let (m, l) := m.newLink block
      let (m, chain) := newChain m blocks
      (m, l :: chain)

def setTd (m : ChainManager σ) (td : Nat) (l : LinkRef) : ChainManager σ :=
  { m with links := Function.update m.links l { m.links l with td := some td } }

/-- Writes through a difficulty that several links share. -/
def shareTd (m : ChainManager σ) (td : Nat) (shared : List LinkRef) : ChainManager σ :=
  { m with links := fun l =>
      if l ∈ shared then { m.links l with td := some td } else m.links l }

def setParent (m : ChainManager σ) (parent : Option LinkRef) (l : LinkRef) : ChainManager σ :=
  { m with links := Function.update m.links l { m.links l with parent := parent } }

def setWorkingTree (m : ChainManager σ) (tree : AssocMap Bytes LinkRef) : ChainManager σ :=
  { m with workingTree := tree }

/-- The parent of a link that joins the tree, and its total difficulty.  `before` are
the links of the chain that have joined already.  A nil difficulty is a panic; the
inner `none` is the chain without a known parent. -/
def attachment (m : ChainManager σ) (before : List LinkRef) (block : ChainBlock) :
    Option (Option (Option LinkRef × Nat)) :=
  match before.getLast? with
  | some f => do
      let td ← (m.links f).td
      return some (some f, td + block.difficulty)
  | none =>
      match AList.lookup block.prevHash m.workingTree with
      | some p => do
          let td ← (m.links p).td
          return some (some p, td + block.difficulty)
      | none =>
          match m.getBlockCanonical block.prevHash with
          | none => some none
          -- the difficulty that is added is the one of the parent
          | some b => some (some (none, m.recordedTD b.hash + b.difficulty))

/-- The link `l` joins the tree after those in `before`.  They all point to `base`, so
`base.Add` changes the difficulty of all of them. -/
def joinLink (m : ChainManager σ) (before : List LinkRef) (l : LinkRef) (parent : Option LinkRef)
    (base : Nat) : ChainManager σ :=
  let joined := (m.setParent parent l).shareTd base (before ++ [l])
  joined.setWorkingTree (joined.workingTree.insert (m.links l).block.hash l)

/-- The loop of `addChainToWorkingTree`, with the chain as it is left.  A link that is
removed from the list has no successor: the loop ends there. -/
def joinTree (m : ChainManager σ) (before : List LinkRef) :
    List LinkRef → Option (ChainManager σ × List LinkRef)
  | [] => some (m, before)
  | l :: rest =>
      let block := (m.links l).block
      if (AList.lookup block.hash m.workingTree).isSome then some (m, before ++ rest)
      else do
        match ← m.attachment before block with
        | none => pure (m, before ++ l :: rest)
        | some (parent, base) => joinTree (m.joinLink before l parent base) (before ++ [l]) rest

/-- `addChainToWorkingTree` -/
def addChainToWorkingTree (m : ChainManager σ) (chain : List LinkRef) :
    Option (ChainManager σ × List LinkRef) :=
  m.joinTree [] chain

/-- A fork is added to the tree. -/
def recordFork (m : ChainManager σ) (fork : Bool) (chain : List LinkRef) :
    Option (ChainManager σ × List LinkRef) :=
  if fork then m.addChainToWorkingTree chain else some (m, chain)

/-! ### Testing and inserting chains -/

def setWorkingChain (m : ChainManager σ) (chain : List LinkRef) : ChainManager σ :=
  { m with workingChain := chain }

def setProcessor (m : ChainManager σ) (processor : σ) : ChainManager σ :=
  { m with processor := processor }

def setHead (m : ChainManager σ) (block : ChainBlock) (hash : Bytes) : ChainManager σ :=
  { m with currentBlock := block, currentBlockHash := hash }

section Processing

variable (process : ChainManager σ → ChainBlock → ChainBlock → Bool × σ)

/-- The loop of `TestChain`: the total difficulty of the last block, or nothing after an
error. -/
def processChain (m : ChainManager σ) (td : Nat) :
    List LinkRef → Option (ChainManager σ × Option Nat)
  | [] => some (m, some td)
  | l :: rest =>
      let block := (m.links l).block
      match m.getBlock block.prevHash with
      | none => some (m, none)
      | some parent =>
          let (accepts, processor) := process m block parent
          let m := m.setProcessor processor
          if accepts then do
            let td ← m.calcTotalDiff block
            processChain (m.setTd td l) td rest
          else some (m, none)

/-- `TestChain`, with the chain as it is left. -/
def testChain (m : ChainManager σ) (chain : List LinkRef) :
    Option (ChainManager σ × List LinkRef × Verdict) := do
  let front ← chain.head?
  let m := m.setWorkingChain chain
  let fork := m.detectFork (m.links front).block
  match ← m.processChain process 0 chain with
  | (m, none) => pure (m.setWorkingChain [], chain, .failed)
  | (m, some td) =>
      let (m, chain) ← m.recordFork fork chain
      pure (m.setWorkingChain [], chain, if td ≤ m.td then .tooLight else .accepted)

/-- `InsertChain` -/
def insertChainWith (reOrg : ChainManager σ → List LinkRef → Option (ChainManager σ))
    (m : ChainManager σ) (chain : List LinkRef) : Option (ChainManager σ) := do
  let front ← chain.head?
  let back ← chain.getLast?
  let branchParent ← m.getBlock (m.links front).block.prevHash
  if m.currentBlock.hash = branchParent.hash then m.lengthen chain
  else do
    let td ← (m.links back).td
    if m.td < td then reOrg m chain else some m

/-- The links from the one off the canonical chain up to `l`. -/
def lineage (m : ChainManager σ) : Nat → LinkRef → Option (List LinkRef) :=
  ParentForest.pathTo fun l => (m.links l).parent

/-- The blocks above the ancestor up to `b`.  It is a panic to walk past genesis. -/
def blocksAbove (m : ChainManager σ) (ancestorHash : Bytes) :
    Nat → ChainBlock → Option (List ChainBlock)
  | 0, _ => none
  | fuel + 1, b =>
      if b.hash = ancestorHash then some []
      else do
        let parent ← m.getBlock b.prevHash
        let blocks ← blocksAbove m ancestorHash fuel parent
        return blocks ++ [b]

/-- The number of blocks that a walk can meet. -/
def known (m : ChainManager σ) : Nat := m.blocks.keys.length + m.workingTree.keys.length

/-- Deletes the links from the working tree. -/
def forget (m : ChainManager σ) (path : List LinkRef) : ChainManager σ :=
  let delete (tree : AssocMap Bytes LinkRef) (l : LinkRef) := tree.erase (m.links l).block.hash
  m.setWorkingTree (path.foldl delete m.workingTree)

/-- `reOrg` up to its first `TestChain`: the manager with the head at the branch point,
the new chain, the old head, and the hash of the branch point. -/
def revert (m : ChainManager σ) (chain : List LinkRef) :
    Option (ChainManager σ × List LinkRef × ChainBlock × Bytes) := do
  let back ← chain.getLast?
  let path ← m.lineage m.nextLink back
  let root ← path.head?
  let ancestorHash := (m.links root).block.prevHash
  let ancestor ← m.getBlockCanonical ancestorHash
  let oldHead ← m.getBlockCanonical m.currentBlockHash
  let (reverted, bchain) := (m.forget path).newChain (path.map fun l => (m.links l).block)
  return (reverted.setHead ancestor ancestorHash, bchain, oldHead, ancestorHash)

/-- The end of `reOrg`: the old canonical blocks are moved to the working tree. -/
def demote (m : ChainManager σ) (oldHead : ChainBlock) (ancestorHash : Bytes) :
    Option (ChainManager σ) := do
  let blocks ← m.blocksAbove ancestorHash (m.known + 1) oldHead
  let (m, bchain) := m.newChain blocks
  let (m, _, _) ← m.testChain process bchain
  return m

/-- `reOrg`.  Its head is the branch point when it calls `InsertChain`, which therefore
never calls `reOrg` again. -/
def reOrg (m : ChainManager σ) (chain : List LinkRef) : Option (ChainManager σ) := do
  let (reverted, bchain, oldHead, ancestorHash) ← m.revert chain
  let (tested, bchain, verdict) ← reverted.testChain process bchain
  if verdict = .accepted then do
    let inserted ← tested.insertChainWith (fun _ _ => none) bchain
    inserted.demote process oldHead ancestorHash
  else
    return tested.setHead oldHead m.currentBlockHash

/-- `InsertChain` -/
def insertChain (m : ChainManager σ) (chain : List LinkRef) : Option (ChainManager σ) :=
  m.insertChainWith (reOrg process) chain

/-- What the block pool does with a list of blocks: `TestChain`, and `InsertChain` unless
there is an error other than a `TDError`. -/
def present (m : ChainManager σ) (blocks : List ChainBlock) : Option (ChainManager σ) := do
  let (m, chain) := m.newChain blocks
  let (m, chain, verdict) ← m.testChain process chain
  if verdict = .failed then return m else m.insertChain process chain

/-- A run of rounds. -/
def rounds (m : ChainManager σ) : List (List ChainBlock) → Option (ChainManager σ)
  | [] => some m
  | blocks :: later => do
      let m ← m.present process blocks
      rounds m later

end Processing

/-! ### Checkpoints -/

/-- `updateCheckpoint` -/
def updateCheckpoint (m : ChainManager σ) (checkPoint : Bytes) : ChainManager σ :=
  { m with
    latestCheckPointHash := checkPoint
    waitingForCheckPoint := (m.getBlock checkPoint).isNone }

/-- `CheckPoint`; `satisfies` is the rule of the protocol. -/
def checkPoint (satisfies : Bytes → ChainManager σ → Bool) (m : ChainManager σ) :
    Option Bytes → ChainManager σ
  | none => m
  | some proposed =>
      if m.latestCheckPointHash = m.genesisBlock.hash then m.updateCheckpoint proposed
      else if satisfies proposed m then m.updateCheckpoint proposed
      else m

/-- `ReceiveCheckPointBlock` -/
def receiveCheckPointBlock (m : ChainManager σ) : Option ChainBlock → ChainManager σ × Bool
  | none => (m, false)
  | some block =>
      if block.hash = m.latestCheckPointHash then
        ((m.add block).updateCheckpoint block.hash, true)
      else (m, false)

end ChainManager

end Thelonious
