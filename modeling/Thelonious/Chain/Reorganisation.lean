import Thelonious.Chain.Links
import Thelonious.Util.Sha3

/-!
# Inserting chains and reorganising

Every state of the chain manager has its current block in the database and its
working links under their hashes.  A reorganisation that fails in its second test
puts the head back, but not the links it has deleted from the working tree.
-/

namespace Thelonious

namespace ChainManager

variable {σ : Type} {m after : ChainManager σ}
variable {process : ChainManager σ → ChainBlock → ChainBlock → Bool × σ}

/-! ### Adding blocks -/

theorem lookup_blocks_add (m : ChainManager σ) (block : ChainBlock) (hash : Bytes) :
    AList.lookup hash (m.add block).blocks =
      if hash = block.hash then some block else AList.lookup hash m.blocks := by
  split
  · rename_i same
    subst same
    exact AList.lookup_insert _
  · rename_i different
    exact AList.lookup_insert_ne different

variable {chain left bchain : List LinkRef} {hash ancestorHash : Bytes} {verdict : Verdict}
  {oldHead : ChainBlock} {back : LinkRef} {reverted : ChainManager σ}
  {satisfies : Bytes → ChainManager σ → Bool}

/-- A property that adding a block with a new total difficulty keeps is kept by
`insertChain`. -/
theorem lengthen_keeps {motive : ChainManager σ → Prop} (lengthened : m.lengthen chain = some after)
    (step : ∀ m td block, motive m → motive ((m.setTotalDifficulty td).add block))
    (start : motive m) : motive after := by
  induction chain generalizing m with
  | nil => exact Option.some.inj lengthened ▸ start
  | cons l rest induction =>
      obtain ⟨td, -, lengthened⟩ := Option.bind_eq_some_iff.mp lengthened
      exact induction lengthened (step m td _ start)

theorem lengthen_frame (lengthened : m.lengthen chain = some after) :
    after.links = m.links ∧ after.nextLink = m.nextLink ∧ after.workingTree = m.workingTree ∧
      after.workingChain = m.workingChain := by
  refine lengthen_keeps (motive := fun other => other.links = m.links ∧
    other.nextLink = m.nextLink ∧ other.workingTree = m.workingTree ∧
      other.workingChain = m.workingChain) lengthened ?_ ⟨rfl, rfl, rfl, rfl⟩
  intro other td block same
  exact same

theorem exists_lengthen (processed : ∀ l ∈ chain, (m.links l).td.isSome) :
    ∃ after, m.lengthen chain = some after := by
  induction chain generalizing m with
  | nil => exact ⟨m, rfl⟩
  | cons l rest induction =>
      obtain ⟨td, tdEq⟩ := Option.isSome_iff_exists.mp (processed l List.mem_cons_self)
      rw [lengthen, tdEq]
      exact induction (m := (m.setTotalDifficulty td).add (m.links l).block) fun other member =>
        processed other (List.mem_cons_of_mem _ member)

theorem currentBlock_lengthen (lengthened : m.lengthen chain = some after)
    (backEq : chain.getLast? = some back) : after.currentBlock = (m.links back).block := by
  induction chain generalizing m with
  | nil => exact absurd backEq (by simp)
  | cons l rest induction =>
      obtain ⟨td, -, lengthened⟩ := Option.bind_eq_some_iff.mp lengthened
      cases rest with
      | nil =>
          obtain rfl : l = back := Option.some.inj backEq
          exact Option.some.inj lengthened ▸ rfl
      | cons next rest =>
          exact induction (m := (m.setTotalDifficulty td).add (m.links l).block) lengthened backEq

theorem lookup_lengthen_isSome (lengthened : m.lengthen chain = some after)
    (stored : (AList.lookup hash m.blocks).isSome) : (AList.lookup hash after.blocks).isSome := by
  refine lengthen_keeps (motive := fun m => (AList.lookup hash m.blocks).isSome)
    lengthened ?_ stored
  intro m td block stored
  rw [lookup_blocks_add]
  split
  · rfl
  · exact stored

theorem lengthen_stores (lengthened : m.lengthen chain = some after) :
    ∀ l ∈ chain, (AList.lookup (m.links l).block.hash after.blocks).isSome := by
  induction chain generalizing m with
  | nil => exact fun l member => absurd member List.not_mem_nil
  | cons first rest induction =>
      obtain ⟨td, -, lengthened⟩ := Option.bind_eq_some_iff.mp lengthened
      intro l member
      rcases List.mem_cons.mp member with rfl | member
      · apply lookup_lengthen_isSome lengthened
        rw [lookup_blocks_add, if_pos rfl]
        rfl
      · exact induction lengthened l member

theorem stored_lengthen (lengthened : m.lengthen chain = some after)
    (stored : (AList.lookup hash after.blocks).isSome) :
    (AList.lookup hash m.blocks).isSome ∨ ∃ l ∈ chain, (m.links l).block.hash = hash := by
  induction chain generalizing m with
  | nil => exact .inl (Option.some.inj lengthened ▸ stored)
  | cons l rest induction =>
      obtain ⟨td, -, lengthened⟩ := Option.bind_eq_some_iff.mp lengthened
      rcases induction lengthened with before | ⟨other, member, hashEq⟩
      · rw [lookup_blocks_add] at before
        split at before
        · rename_i same
          exact .inr ⟨l, List.mem_cons_self, same.symm⟩
        · exact .inl before
      · exact .inr ⟨other, List.mem_cons_of_mem _ member, hashEq⟩

/-! ### The working tree -/

/-- A link of the tree was there before, or joined with the chain. -/
theorem lookup_joinTree {before rest : List LinkRef}
    (joined : m.joinTree before rest = some (after, left)) {l : LinkRef}
    (found : AList.lookup hash after.workingTree = some l) :
    AList.lookup hash m.workingTree = some l ∨ l ∈ rest ∧ (m.links l).block.hash = hash := by
  induction rest generalizing m before with
  | nil =>
      cases joined
      exact .inl found
  | cons first rest induction =>
      rcases joinTree_cons joined with ⟨-, rfl, -⟩ | ⟨-, ⟨-, rfl, -⟩ | ⟨parent, base, -, joined⟩⟩
      · exact .inl found
      · exact .inl found
      · rcases induction joined with found | ⟨member, hashEq⟩
        · rw [lookup_joinLink] at found
          split at found
          · rename_i same
            cases found
            exact .inr ⟨List.mem_cons_self, same.symm⟩
          · exact .inl found
        · rw [links_joinLink] at hashEq
          exact .inr ⟨List.mem_cons_of_mem _ member, hashEq⟩

theorem lookup_testChain (tested : m.testChain process chain = some (after, left, verdict))
    (nodup : chain.Nodup) {l : LinkRef} (found : AList.lookup hash after.workingTree = some l) :
    AList.lookup hash m.workingTree = some l ∨ l ∈ chain ∧ (m.links l).block.hash = hash := by
  obtain ⟨front, processed, last, -, processedEq, outcome⟩ := testChain_cases tested
  have processes := processes_processChain processedEq nodup
  have treeEq : processed.workingTree = m.workingTree := processes.workingTree_eq
  rcases outcome with ⟨-, -, -, rfl⟩ | ⟨td, joined, -, -, rfl, joinedEq⟩
  · exact .inl (treeEq ▸ found)
  · unfold recordFork at joinedEq
    split at joinedEq
    · rcases lookup_joinTree joinedEq found with found | ⟨member, hashEq⟩
      · exact .inl (treeEq ▸ found)
      · exact .inr ⟨member, (congrArg _ (processes.touches.block_eq l)).symm.trans hashEq⟩
    · cases joinedEq
      exact .inl (treeEq ▸ found)

/-- `addChainToWorkingTree` removes no link from the tree. -/
theorem lookup_joinTree_isSome {before rest : List LinkRef}
    (joined : m.joinTree before rest = some (after, left))
    (inTree : (AList.lookup hash m.workingTree).isSome) :
    (AList.lookup hash after.workingTree).isSome := by
  induction rest generalizing m before with
  | nil =>
      cases joined
      exact inTree
  | cons first rest induction =>
      rcases joinTree_cons joined with ⟨-, rfl, -⟩ | ⟨-, ⟨-, rfl, -⟩ | ⟨parent, base, -, joined⟩⟩
      · exact inTree
      · exact inTree
      · apply induction joined
        rw [lookup_joinLink]
        split
        · rfl
        · exact inTree

theorem lookup_testChain_isSome (tested : m.testChain process chain = some (after, left, verdict))
    (nodup : chain.Nodup) (inTree : (AList.lookup hash m.workingTree).isSome) :
    (AList.lookup hash after.workingTree).isSome := by
  obtain ⟨front, processed, last, -, processedEq, outcome⟩ := testChain_cases tested
  have treeEq : processed.workingTree = m.workingTree :=
    (processes_processChain processedEq nodup).workingTree_eq
  rw [← treeEq] at inTree
  rcases outcome with ⟨-, -, -, rfl⟩ | ⟨td, joined, -, -, rfl, joinedEq⟩
  · exact inTree
  · unfold recordFork at joinedEq
    split at joinedEq
    · have inJoined := lookup_joinTree_isSome joinedEq inTree
      exact inJoined
    · cases joinedEq
      exact inTree

theorem lookup_forget (m : ChainManager σ) (path : List LinkRef) (hash : Bytes) :
    AList.lookup hash (m.forget path).workingTree =
      if ∃ l ∈ path, (m.links l).block.hash = hash then none
      else AList.lookup hash m.workingTree := by
  have general : ∀ tree : AssocMap Bytes LinkRef, AList.lookup hash
      (path.foldl (fun tree l => tree.erase (m.links l).block.hash) tree) =
        if ∃ l ∈ path, (m.links l).block.hash = hash then none else AList.lookup hash tree := by
    induction path with
    | nil => simp
    | cons l path induction =>
        intro tree
        rw [List.foldl_cons, induction]
        by_cases same : (m.links l).block.hash = hash
        · subst same
          simp
        · rw [AList.lookup_erase_ne (Ne.symm same)]
          simp [same]
  exact general m.workingTree

/-! ### The steps of a reorganisation -/

/-- What `revert` has found and changed. -/
structure Reverts (m : ChainManager σ) (chain : List LinkRef) (reverted : ChainManager σ)
    (bchain : List LinkRef) (oldHead : ChainBlock) (ancestorHash : Bytes) (path : List LinkRef)
    (ancestor : ChainBlock) (allocated : ChainManager σ) : Prop where
  lineage_eq : ∃ back, chain.getLast? = some back ∧ m.lineage m.nextLink back = some path
  root_eq : ∃ root, path.head? = some root ∧ (m.links root).block.prevHash = ancestorHash
  ancestor_eq : m.getBlockCanonical ancestorHash = some ancestor
  oldHead_eq : m.getBlockCanonical m.currentBlockHash = some oldHead
  allocates : Allocates (m.forget path) (path.map fun l => (m.links l).block) allocated bchain
  reverted_eq : reverted = allocated.setHead ancestor ancestorHash

theorem reverts_of_revert (eq : m.revert chain = some (reverted, bchain, oldHead, ancestorHash)) :
    ∃ path ancestor allocated,
      Reverts m chain reverted bchain oldHead ancestorHash path ancestor allocated := by
  obtain ⟨back, backEq, eq⟩ := Option.bind_eq_some_iff.mp eq
  obtain ⟨path, pathEq, eq⟩ := Option.bind_eq_some_iff.mp eq
  obtain ⟨root, rootEq, eq⟩ := Option.bind_eq_some_iff.mp eq
  obtain ⟨ancestor, ancestorEq, eq⟩ := Option.bind_eq_some_iff.mp eq
  obtain ⟨head, headEq, eq⟩ := Option.bind_eq_some_iff.mp eq
  obtain ⟨rfl, rfl, rfl, rfl⟩ := by simpa using eq
  exact ⟨path, ancestor, _, ⟨back, backEq, pathEq⟩, ⟨root, rootEq, rfl⟩, ancestorEq, headEq,
    allocates_newChain _ _, rfl⟩

/-- `reOrg` unfolded once. -/
theorem reOrg_cases (reorganised : m.reOrg process chain = some after) :
    ∃ reverted bchain oldHead ancestorHash tested left verdict,
      m.revert chain = some (reverted, bchain, oldHead, ancestorHash) ∧
      reverted.testChain process bchain = some (tested, left, verdict) ∧
      ((verdict = .accepted ∧ ∃ inserted,
          tested.insertChainWith (fun _ _ => none) left = some inserted ∧
          inserted.demote process oldHead ancestorHash = some after) ∨
        (verdict ≠ .accepted ∧ after = tested.setHead oldHead m.currentBlockHash)) := by
  obtain ⟨⟨reverted, bchain, oldHead, ancestorHash⟩, reverts, eq⟩ :=
    Option.bind_eq_some_iff.mp reorganised
  obtain ⟨⟨tested, left, verdict⟩, testedEq, eq⟩ := Option.bind_eq_some_iff.mp eq
  refine ⟨reverted, bchain, oldHead, ancestorHash, tested, left, verdict, reverts, testedEq, ?_⟩
  dsimp only at eq
  split at eq
  · rename_i accepted
    obtain ⟨inserted, insertedEq, demoted⟩ := Option.bind_eq_some_iff.mp eq
    exact .inl ⟨accepted, inserted, insertedEq, demoted⟩
  · rename_i rejected
    exact .inr ⟨rejected, (Option.some.inj eq).symm⟩

/-- `InsertChain` unfolded once. -/
theorem insertChainWith_cases {reOrg : ChainManager σ → List LinkRef → Option (ChainManager σ)}
    (inserted : m.insertChainWith reOrg chain = some after) :
    ∃ front back branchParent, chain.head? = some front ∧ chain.getLast? = some back ∧
      m.getBlock (m.links front).block.prevHash = some branchParent ∧
      ((m.currentBlock.hash = branchParent.hash ∧ m.lengthen chain = some after) ∨
        (m.currentBlock.hash ≠ branchParent.hash ∧ ∃ td, (m.links back).td = some td ∧
          ((m.td < td ∧ reOrg m chain = some after) ∨ (td ≤ m.td ∧ after = m)))) := by
  obtain ⟨front, frontEq, eq⟩ := Option.bind_eq_some_iff.mp inserted
  obtain ⟨back, backEq, eq⟩ := Option.bind_eq_some_iff.mp eq
  obtain ⟨branchParent, parentEq, eq⟩ := Option.bind_eq_some_iff.mp eq
  refine ⟨front, back, branchParent, frontEq, backEq, parentEq, ?_⟩
  split at eq
  · rename_i same
    exact .inl ⟨same, eq⟩
  · rename_i different
    obtain ⟨td, tdEq, eq⟩ := Option.bind_eq_some_iff.mp eq
    refine .inr ⟨different, td, tdEq, ?_⟩
    split at eq
    · rename_i heavier
      exact .inl ⟨heavier, eq⟩
    · rename_i lighter
      exact .inr ⟨not_lt.mp lighter, (Option.some.inj eq).symm⟩

/-- The first block of the chain has the current block as its parent. -/
structure OnHead (m : ChainManager σ) (chain : List LinkRef) (front back : LinkRef)
    (branchParent : ChainBlock) : Prop where
  head_eq : chain.head? = some front
  last_eq : chain.getLast? = some back
  parent_eq : m.getBlock (m.links front).block.prevHash = some branchParent
  current_eq : m.currentBlock.hash = branchParent.hash

theorem OnHead.insertChainWith {front : LinkRef} {branchParent : ChainBlock}
    (onHead : OnHead m chain front back branchParent)
    (reOrg : ChainManager σ → List LinkRef → Option (ChainManager σ)) :
    m.insertChainWith reOrg chain = m.lengthen chain := by
  simp [ChainManager.insertChainWith, onHead.head_eq, onHead.last_eq, onHead.parent_eq,
    onHead.current_eq]

theorem insertChainWith_forks {reOrg : ChainManager σ → List LinkRef → Option (ChainManager σ)}
    {front : LinkRef} {branchParent : ChainBlock} {td : Nat} (frontEq : chain.head? = some front)
    (backEq : chain.getLast? = some back)
    (parentEq : m.getBlock (m.links front).block.prevHash = some branchParent)
    (different : m.currentBlock.hash ≠ branchParent.hash) (tdEq : (m.links back).td = some td) :
    m.insertChainWith reOrg chain = if m.td < td then reOrg m chain else some m := by
  simp [insertChainWith, frontEq, backEq, parentEq, different, tdEq]

theorem reOrg_rejected {tested : ChainManager σ}
    (revertEq : m.revert chain = some (reverted, bchain, oldHead, ancestorHash))
    (testedEq : reverted.testChain process bchain = some (tested, left, verdict))
    (rejected : verdict ≠ .accepted) :
    m.reOrg process chain = some (tested.setHead oldHead m.currentBlockHash) := by
  simp [reOrg, revertEq, testedEq, rejected]

theorem reOrg_accepted {tested inserted : ChainManager σ}
    (revertEq : m.revert chain = some (reverted, bchain, oldHead, ancestorHash))
    (testedEq : reverted.testChain process bchain = some (tested, left, .accepted))
    (insertedEq : tested.insertChainWith (fun _ _ => none) left = some inserted) :
    m.reOrg process chain = inserted.demote process oldHead ancestorHash := by
  simp [reOrg, revertEq, testedEq, insertedEq]

theorem demote_cases (demoted : m.demote process oldHead ancestorHash = some after) :
    ∃ blocks allocated chain left verdict,
      m.blocksAbove ancestorHash (m.known + 1) oldHead = some blocks ∧
      Allocates m blocks allocated chain ∧
      allocated.testChain process chain = some (after, left, verdict) := by
  obtain ⟨blocks, blocksEq, eq⟩ := Option.bind_eq_some_iff.mp demoted
  obtain ⟨⟨tested, left, verdict⟩, testedEq, eq⟩ := Option.bind_eq_some_iff.mp eq
  cases eq
  exact ⟨blocks, _, _, left, verdict, blocksEq, allocates_newChain _ _, testedEq⟩

theorem Allocates.head {blocks : List ChainBlock} {first : ChainBlock}
    (allocates : Allocates m blocks after chain) (firstEq : blocks.head? = some first) :
    ∃ front, chain.head? = some front ∧ (after.links front).block = first := by
  rw [← allocates.blocks_eq, List.head?_map] at firstEq
  exact Option.map_eq_some_iff.mp firstEq

/-- Testing a chain that is no fork only runs the loop. -/
theorem testChain_of_not_fork (tested : m.testChain process chain = some (after, left, verdict))
    {front : LinkRef} (frontEq : chain.head? = some front) (nodup : chain.Nodup)
    (extending : (m.setWorkingChain chain).detectFork (m.links front).block = false) :
    left = chain ∧ ∃ processed last,
      (m.setWorkingChain chain).processChain process 0 chain = some (processed, last) ∧
      after = processed.setWorkingChain [] ∧
      verdict = last.elim .failed fun td => if td ≤ m.td then .tooLight else .accepted := by
  obtain ⟨first, processed, last, firstEq, processedEq, outcome⟩ := testChain_cases tested
  obtain rfl : first = front := Option.some.inj (firstEq.symm.trans frontEq)
  rcases outcome with ⟨rfl, rfl, rfl, rfl⟩ | ⟨td, joined, rfl, rfl, rfl, joinedEq⟩
  · exact ⟨rfl, processed, none, processedEq, rfl, rfl⟩
  · simp only [recordFork, extending] at joinedEq
    cases joinedEq
    have tdEq : processed.td = m.td := (processes_processChain processedEq nodup).touches.td_eq
    exact ⟨rfl, processed, some td, processedEq, rfl, by rw [tdEq]; rfl⟩

namespace Reverts

variable {chain bchain path : List LinkRef} {reverted allocated : ChainManager σ}
variable {oldHead ancestor : ChainBlock} {ancestorHash : Bytes}

/-- The new chain starts at the block that the head has been set to. -/
theorem front (reverts : Reverts m chain reverted bchain oldHead ancestorHash path ancestor
    allocated) :
    ∃ front, bchain.head? = some front ∧
      (reverted.links front).block.prevHash = ancestorHash ∧
      (reverted.setWorkingChain bchain).detectFork (reverted.links front).block = false := by
  obtain ⟨root, rootEq, hashEq⟩ := reverts.root_eq
  have headEq : (bchain.map fun l => (allocated.links l).block).head? =
      some (m.links root).block := by
    rw [reverts.allocates.blocks_eq, List.head?_map, rootEq]
    rfl
  rw [List.head?_map] at headEq
  obtain ⟨front, frontEq, blockEq⟩ := Option.map_eq_some_iff.mp headEq
  have prevEq : (reverted.links front).block.prevHash = ancestorHash := by
    rw [reverts.reverted_eq]
    exact (congrArg _ blockEq).trans hashEq
  refine ⟨front, frontEq, prevEq, ?_⟩
  have found : (reverted.setWorkingChain bchain).getBlock ancestorHash = some ancestor := by
    have canonical : (reverted.setWorkingChain bchain).getBlockCanonical ancestorHash =
        some ancestor := by
      rw [reverts.reverted_eq]
      change AList.lookup _ allocated.blocks = _
      rw [reverts.allocates.blocks_kept]
      exact reverts.ancestor_eq
    rw [getBlock, canonical]
  have headIs : (reverted.setWorkingChain bchain).currentBlock = ancestor := by
    rw [reverts.reverted_eq]
    rfl
  rw [detectFork, prevEq, found]
  simp [headIs]

end Reverts

/-! ### What holds in every state -/

/-- The links of the tree and the blocks of the database stand under their hashes, and the
current block is in the database. -/
structure Recorded (m : ChainManager σ) : Prop where
  tree {hash : Bytes} {l : LinkRef} : AList.lookup hash m.workingTree = some l →
    l < m.nextLink ∧ (m.links l).block.hash = hash
  named {hash : Bytes} {block : ChainBlock} :
    AList.lookup hash m.blocks = some block → block.hash = hash
  head : m.currentBlockHash = m.currentBlock.hash
  current : AList.lookup m.currentBlock.hash m.blocks = some m.currentBlock
  idle : m.workingChain = []

namespace Recorded

theorem boot (genesis : ChainBlock) (processor : σ) : Recorded (boot genesis processor) where
  tree found := absurd found (by simp [ChainManager.boot, add, writeBlockInfo])
  named {hash block} found := by
    have cases := (lookup_blocks_add _ genesis hash).symm.trans found
    split at cases
    · rename_i same
      cases cases
      exact same.symm
    · exact absurd cases (by simp)
  head := rfl
  current := AList.lookup_insert _
  idle := rfl

variable {chain : List LinkRef} {block : ChainBlock}

theorem setHead (recorded : Recorded m) {hash : Bytes}
    (found : AList.lookup hash m.blocks = some block) : Recorded (m.setHead block hash) where
  tree := recorded.tree
  named := recorded.named
  head := (recorded.named found).symm
  current := by
    rw [← recorded.named found] at found
    exact found
  idle := recorded.idle

theorem add (recorded : Recorded m) (td : Nat) (block : ChainBlock) :
    Recorded ((m.setTotalDifficulty td).add block) where
  tree := recorded.tree
  named {hash other} found := by
    rw [lookup_blocks_add] at found
    split at found
    · rename_i same
      cases found
      exact same.symm
    · exact recorded.named found
  head := rfl
  current := AList.lookup_insert _
  idle := recorded.idle

theorem lengthen (recorded : Recorded m) (lengthened : m.lengthen chain = some after) :
    Recorded after :=
  lengthen_keeps lengthened (fun _ td block recorded => recorded.add td block) recorded

theorem allocates (recorded : Recorded m) {blocks : List ChainBlock}
    (allocates : Allocates m blocks after chain) : Recorded after where
  tree {hash l} found := by
    obtain ⟨below, hashEq⟩ := recorded.tree (allocates.workingTree_eq ▸ found)
    rw [allocates.kept below]
    exact ⟨below.trans_le allocates.nextLink_le, hashEq⟩
  named found := recorded.named (allocates.blocks_kept ▸ found)
  head := by rw [allocates.currentBlockHash_kept, allocates.currentBlock_kept, recorded.head]
  current := by
    rw [allocates.blocks_kept, allocates.currentBlock_kept]
    exact recorded.current
  idle := allocates.workingChain_eq.trans recorded.idle

theorem testChain (recorded : Recorded m) {left : List LinkRef} {verdict : Verdict}
    (tested : m.testChain process chain = some (after, left, verdict)) (nodup : chain.Nodup)
    (below : ∀ l ∈ chain, l < m.nextLink) : Recorded after := by
  obtain ⟨touches, idle⟩ := touches_testChain tested nodup
  constructor
  case tree =>
    intro hash l found
    rw [touches.nextLink_eq, touches.block_eq]
    rcases lookup_testChain tested nodup found with found | ⟨member, hashEq⟩
    · exact recorded.tree found
    · exact ⟨below l member, hashEq⟩
  case named =>
    intro hash block found
    exact recorded.named (touches.blocks_eq ▸ found)
  case head => rw [touches.currentBlockHash_eq, touches.currentBlock_eq, recorded.head]
  case current =>
    rw [touches.blocks_eq, touches.currentBlock_eq]
    exact recorded.current
  case idle => exact idle

theorem forget (recorded : Recorded m) (path : List LinkRef) : Recorded (m.forget path) where
  tree {hash l} found := by
    rw [lookup_forget] at found
    split at found
    · exact absurd found (by simp)
    · exact recorded.tree found
  named := recorded.named
  head := recorded.head
  current := recorded.current
  idle := recorded.idle

theorem reverts (recorded : Recorded m) {bchain path : List LinkRef}
    {reverted allocated : ChainManager σ} {oldHead ancestor : ChainBlock} {ancestorHash : Bytes}
    (reverts : Reverts m chain reverted bchain oldHead ancestorHash path ancestor allocated) :
    Recorded reverted := by
  rw [reverts.reverted_eq]
  apply ((recorded.forget path).allocates reverts.allocates).setHead
  rw [reverts.allocates.blocks_kept]
  exact reverts.ancestor_eq

theorem reOrg (recorded : Recorded m) (reorganised : m.reOrg process chain = some after) :
    Recorded after := by
  obtain ⟨reverted, bchain, oldHead, ancestorHash, tested, left, verdict, revertEq, testedEq,
    outcome⟩ := reOrg_cases reorganised
  obtain ⟨path, ancestor, allocated, reverts⟩ := reverts_of_revert revertEq
  have nodup := reverts.allocates.nodup
  have below : ∀ l ∈ bchain, l < reverted.nextLink := by
    intro l member
    rw [reverts.reverted_eq]
    exact (reverts.allocates.fresh.mp member).2
  have testedRecorded := (recorded.reverts reverts).testChain testedEq nodup below
  rcases outcome with ⟨-, inserted, insertedEq, demoted⟩ | ⟨-, rfl⟩
  · have insertedRecorded : Recorded inserted := by
      obtain ⟨-, -, -, -, -, -, ⟨-, lengthened⟩ | ⟨-, -, -, ⟨-, nested⟩ | ⟨-, rfl⟩⟩⟩ :=
        insertChainWith_cases insertedEq
      · exact testedRecorded.lengthen lengthened
      · exact absurd nested (by simp)
      · exact testedRecorded
    obtain ⟨blocks, moved, old, left, verdict, -, allocates, retested⟩ := demote_cases demoted
    exact (insertedRecorded.allocates allocates).testChain retested allocates.nodup
      fun l member => (allocates.fresh.mp member).2
  · apply testedRecorded.setHead
    rw [(touches_testChain testedEq nodup).1.blocks_eq, reverts.reverted_eq]
    change AList.lookup _ allocated.blocks = _
    rw [reverts.allocates.blocks_kept]
    exact reverts.oldHead_eq

theorem insertChain (recorded : Recorded m) (inserted : m.insertChain process chain = some after) :
    Recorded after := by
  obtain ⟨-, -, -, -, -, -, ⟨-, lengthened⟩ | ⟨-, -, -, ⟨-, reorganised⟩ | ⟨-, rfl⟩⟩⟩ :=
    insertChainWith_cases inserted
  · exact recorded.lengthen lengthened
  · exact recorded.reOrg reorganised
  · exact recorded

theorem hash_of_getBlock (recorded : Recorded m) {hash : Bytes}
    (found : m.getBlock hash = some block) : block.hash = hash := by
  unfold getBlock at found
  split at found
  · rename_i canonical
    cases found
    exact recorded.named canonical
  · unfold getBlockWorking at found
    split at found
    · rename_i inTree
      cases found
      exact (recorded.tree inTree).2
    · rw [findWorking, recorded.idle] at found
      exact absurd found (by simp)

theorem detectFork_of_extends (recorded : Recorded m) (onTop : block.prevHash = m.currentBlock.hash)
    (chain : List LinkRef) : (m.setWorkingChain chain).detectFork block = false := by
  have found : (m.setWorkingChain chain).getBlock block.prevHash = some m.currentBlock := by
    have canonical : (m.setWorkingChain chain).getBlockCanonical block.prevHash =
        some m.currentBlock := by
      rw [onTop]
      exact recorded.current
    rw [getBlock, canonical]
  rw [detectFork, found]
  simp [setWorkingChain]

/-- A round that presents a chain on top of the current block: nothing is inserted, or the whole
chain is. -/
theorem present_onTop (recorded : Recorded m) {blocks : List ChainBlock} {first : ChainBlock}
    (presented : m.present process blocks = some after) (firstEq : blocks.head? = some first)
    (onTop : first.prevHash = m.currentBlock.hash) :
    ∃ tested chain verdict,
      (m.newChain blocks).1.testChain process (m.newChain blocks).2 =
        some (tested, chain, verdict) ∧
      (after = tested ∨ tested.insertChain process chain = some after ∧
        (∀ l ∈ chain, l < tested.nextLink) ∧
        chain.map (fun l => (tested.links l).block) = blocks ∧
        tested.currentBlock = m.currentBlock ∧
        ∃ front, chain.head? = some front ∧
          (tested.links front).block.prevHash = tested.currentBlock.hash) := by
  obtain ⟨⟨tested, chain, verdict⟩, testedEq, presented⟩ := Option.bind_eq_some_iff.mp presented
  refine ⟨tested, chain, verdict, testedEq, ?_⟩
  dsimp only at presented
  split at presented
  · exact .inl (Option.some.inj presented).symm
  · have allocates := allocates_newChain m blocks
    obtain ⟨front, frontEq, blockEq⟩ := allocates.head firstEq
    have touches := (touches_testChain testedEq allocates.nodup).1
    have currentEq : tested.currentBlock = m.currentBlock :=
      touches.currentBlock_eq.trans allocates.currentBlock_kept
    have extending : ((m.newChain blocks).1.setWorkingChain (m.newChain blocks).2).detectFork
        ((m.newChain blocks).1.links front).block = false := by
      apply (recorded.allocates allocates).detectFork_of_extends
      rw [blockEq, onTop, allocates.currentBlock_kept]
    obtain ⟨rfl, -⟩ := testChain_of_not_fork testedEq frontEq allocates.nodup extending
    refine .inr ⟨presented, ?_, ?_, currentEq, front, frontEq, ?_⟩
    · intro l member
      rw [touches.nextLink_eq]
      exact (allocates.fresh.mp member).2
    · simp only [touches.block_eq]
      exact allocates.blocks_eq
    · rw [touches.block_eq, blockEq, currentEq]
      exact onTop

end Recorded

/-- The states that calls of `TestChain`, `InsertChain` and the functions for checkpoints
lead to. -/
inductive Reachable (process : ChainManager σ → ChainBlock → ChainBlock → Bool × σ)
    (satisfies : Bytes → ChainManager σ → Bool) : ChainManager σ → Prop
  | boot (genesis : ChainBlock) (processor : σ) :
      Reachable process satisfies (boot genesis processor)
  | testChain {m after : ChainManager σ} {blocks : List ChainBlock} {left : List LinkRef}
      {verdict : Verdict} : Reachable process satisfies m →
      (m.newChain blocks).1.testChain process (m.newChain blocks).2 = some (after, left, verdict) →
      Reachable process satisfies after
  | insertChain {m after : ChainManager σ} {chain : List LinkRef} :
      Reachable process satisfies m → m.insertChain process chain = some after →
      Reachable process satisfies after
  | checkPoint {m : ChainManager σ} {proposed : Option Bytes} : Reachable process satisfies m →
      Reachable process satisfies (m.checkPoint satisfies proposed)
  | receiveCheckPointBlock {m : ChainManager σ} {block : Option ChainBlock} :
      Reachable process satisfies m →
      Reachable process satisfies (m.receiveCheckPointBlock block).1

theorem Recorded.updateCheckpoint (recorded : Recorded m) (hash : Bytes) :
    Recorded (m.updateCheckpoint hash) :=
  ⟨recorded.tree, recorded.named, recorded.head, recorded.current, recorded.idle⟩

theorem Reachable.recorded (reachable : Reachable process satisfies m) : Recorded m := by
  induction reachable with
  | boot genesis processor => exact .boot genesis processor
  | @testChain m after blocks left verdict reachable tested recorded =>
      have allocates := allocates_newChain m blocks
      exact (recorded.allocates allocates).testChain tested allocates.nodup
        fun l member => (allocates.fresh.mp member).2
  | insertChain reachable inserted recorded => exact recorded.insertChain inserted
  | @checkPoint m proposed reachable recorded =>
      cases proposed with
      | none => exact recorded
      | some hash =>
          simp only [ChainManager.checkPoint]
          split
          · exact recorded.updateCheckpoint hash
          · split
            · exact recorded.updateCheckpoint hash
            · exact recorded
  | @receiveCheckPointBlock m block reachable recorded =>
      cases block with
      | none => exact recorded
      | some block =>
          simp only [ChainManager.receiveCheckPointBlock]
          split
          · exact (recorded.add m.td block).updateCheckpoint block.hash
          · exact recorded

theorem Reachable.present (reachable : Reachable process satisfies m) {blocks : List ChainBlock}
    (presented : m.present process blocks = some after) : Reachable process satisfies after := by
  obtain ⟨⟨tested, chain, verdict⟩, testedEq, presented⟩ := Option.bind_eq_some_iff.mp presented
  have testedReachable := reachable.testChain testedEq
  dsimp only at presented
  split at presented
  · exact Option.some.inj presented ▸ testedReachable
  · exact testedReachable.insertChain presented

theorem Reachable.rounds (reachable : Reachable process satisfies m)
    {chains : List (List ChainBlock)} (run : m.rounds process chains = some after) :
    Reachable process satisfies after := by
  induction chains generalizing m with
  | nil => exact Option.some.inj run ▸ reachable
  | cons blocks later induction =>
      obtain ⟨middle, presented, run⟩ := Option.bind_eq_some_iff.mp run
      exact induction (reachable.present presented) run

/-! ### Failed reorganisations -/

/-- The second test of a reorganisation returns an error. -/
def ReOrgFails (process : ChainManager σ → ChainBlock → ChainBlock → Bool × σ)
    (m : ChainManager σ) (chain : List LinkRef) : Prop :=
  ∃ reverted bchain oldHead ancestorHash tested left verdict,
    m.revert chain = some (reverted, bchain, oldHead, ancestorHash) ∧
    reverted.testChain process bchain = some (tested, left, verdict) ∧ verdict ≠ .accepted

/-- The head, the total difficulty and the working tree are the same, with the links in
it. -/
structure Unchanged (m after : ChainManager σ) : Prop where
  currentBlock : after.currentBlock = m.currentBlock
  currentBlockHash : after.currentBlockHash = m.currentBlockHash
  currentBlockNumber : after.currentBlockNumber = m.currentBlockNumber
  td : after.td = m.td
  workingTree (hash : Bytes) : AList.lookup hash after.workingTree = AList.lookup hash m.workingTree
  links {hash : Bytes} {l : LinkRef} : AList.lookup hash m.workingTree = some l →
    after.links l = m.links l

/-- A failed reorganisation changes nothing if and only if none of the links from the
last one of the chain back to the canonical chain is in the working tree. -/
theorem reOrg_unchanged_iff (process : ChainManager σ → ChainBlock → ChainBlock → Bool × σ)
    (satisfies : Bytes → ChainManager σ → Bool) (m : ChainManager σ)
    (reachable : Reachable process satisfies m) (chain : List LinkRef)
    (fails : ReOrgFails process m chain) :
    ∃ after, m.reOrg process chain = some after ∧
      (Unchanged m after ↔ ∀ back path, chain.getLast? = some back →
        m.lineage m.nextLink back = some path →
        ∀ l ∈ path, AList.lookup (m.links l).block.hash m.workingTree = none) := by
  obtain ⟨reverted, bchain, oldHead, ancestorHash, tested, left, verdict, revertEq, testedEq,
    rejected⟩ := fails
  have recorded := reachable.recorded
  obtain ⟨path, ancestor, allocated, reverts⟩ := reverts_of_revert revertEq
  obtain ⟨back, backEq, pathEq⟩ := reverts.lineage_eq
  refine ⟨_, reOrg_rejected revertEq testedEq rejected, ?_⟩
  have allocates := reverts.allocates
  have touches := (touches_testChain testedEq allocates.nodup).1
  have treeEq : ∀ hash, AList.lookup hash tested.workingTree =
      AList.lookup hash (m.forget path).workingTree := by
    intro hash
    obtain ⟨front, frontEq, -, extending⟩ := reverts.front
    obtain ⟨-, processed, last, processedEq, rfl, -⟩ :=
      testChain_of_not_fork testedEq frontEq allocates.nodup extending
    change AList.lookup hash processed.workingTree = _
    rw [(processes_processChain processedEq allocates.nodup).workingTree_eq, reverts.reverted_eq]
    exact congrArg _ allocates.workingTree_eq
  constructor
  · intro unchanged back' path' backEq' pathEq' l member
    obtain rfl : back' = back := Option.some.inj (backEq'.symm.trans backEq)
    obtain rfl : path' = path := Option.some.inj (pathEq'.symm.trans pathEq)
    have same := unchanged.workingTree (m.links l).block.hash
    have gone : AList.lookup (m.links l).block.hash tested.workingTree = none := by
      rw [treeEq, lookup_forget, if_pos ⟨l, member, rfl⟩]
    exact same.symm.trans gone
  · intro absent
    have oldHeadEq : oldHead = m.currentBlock := by
      have current := recorded.current
      rw [← recorded.head] at current
      exact Option.some.inj (reverts.oldHead_eq.symm.trans current)
    constructor
    case currentBlock => exact oldHeadEq
    case currentBlockHash => rfl
    case currentBlockNumber =>
      refine touches.currentBlockNumber_eq.trans ?_
      rw [reverts.reverted_eq]
      exact allocates.currentBlockNumber_kept
    case td =>
      refine touches.td_eq.trans ?_
      rw [reverts.reverted_eq]
      exact allocates.td_kept
    case workingTree =>
      intro hash
      refine (treeEq hash).trans ?_
      rw [lookup_forget]
      split
      · rename_i deleted
        obtain ⟨l, member, rfl⟩ := deleted
        exact (absent back path backEq pathEq l member).symm
      · rfl
    case links =>
      intro hash l found
      have below : l < m.nextLink := (recorded.tree found).1
      have outside : l ∉ bchain := allocates.not_mem_of_lt below
      refine (touches.links_eq outside).trans ?_
      rw [reverts.reverted_eq]
      exact allocates.kept below

/-! ### A small tree of blocks -/

def sampleHeader (prevHash : Bytes) (number difficulty : Int) : Header :=
  { prevHash := prevHash, uncleSha := [], coinbase := [], root := .str [], txSha := [],
    difficulty := difficulty, number := number, minGasPrice := 0, gasLimit := 0, gasUsed := 0,
    time := 0, extra := [], nonce := [] }

def originHash : Bytes :=
  digest 0xba85382580b59621f1bddefb486600b80fd72dbf26510f811c67fa543c0fe2e9

def trunkHash : Bytes :=
  digest 0xfc7c5702912692f7dc71939b6062707eb5e3f0cfea2c30921caf2ce72e60017e

def twigHash : Bytes :=
  digest 0x28145651943a45826ff46bdcf48eb078ff47f36fe35a9af189cea9685bdda1ea

/-- The hashes of the headers. -/
def treeSha3 : Bytes → Bytes :=
  sampled [(encode (sampleHeader [] 0 1).value, originHash),
    (encode (sampleHeader originHash 1 10).value, trunkHash),
    (encode (sampleHeader originHash 1 1).value, twigHash),
    (encode (sampleHeader trunkHash 2 1).value,
      digest 0xd5d9bbe711330762adee31e96778a4c9077413f669b5f0ab5ec0577bbc29d680),
    (encode (sampleHeader trunkHash 2 5).value,
      digest 0x49b6849906677b89ef15d890e755fd35ce41e2f0673bc3587f65d8a9414c757f),
    (encode (sampleHeader twigHash 2 1).value,
      digest 0xd4656a2fee0d1540167811d0af8542e0061f1bde3ff869da80a8b5f0e473b0f6),
    (encode (sampleHeader originHash 1 20).value,
      digest 0x049baa8bf45eaa3dddeac153f12cb4b644142e80d8e1ca1fb072f05d8cf6c26e)] fun _ => digest 0

def treeBlock (prevHash : Bytes) (number difficulty : Int) : ChainBlock :=
  Block.chainBlock treeSha3 ⟨sampleHeader prevHash number difficulty, [], [], [], 0, [], []⟩

/-- The genesis block. -/
def origin : ChainBlock := treeBlock [] 0 1

/-- Two blocks on top of genesis, and a rival of them. -/
def trunk : ChainBlock := treeBlock originHash 1 10

def twig : ChainBlock := treeBlock originHash 1 1

def rival : ChainBlock := treeBlock originHash 1 20

/-- Two blocks on top of the trunk. -/
def lowLeaf : ChainBlock := treeBlock trunkHash 2 1

def highLeaf : ChainBlock := treeBlock trunkHash 2 5

/-- A block on top of the twig. -/
def twigLeaf : ChainBlock := treeBlock twigHash 2 1

/-- A processor that accepts every block. -/
def acceptAll (_ : ChainManager Unit) (_ _ : ChainBlock) : Bool × Unit := (true, ())

/-- The low leaf is tested when the high leaf is the head. -/
def lowLeafTested : Option (ChainManager Unit × List LinkRef × Verdict) := do
  let m ← rounds acceptAll (boot origin ()) [[trunk], [highLeaf]]
  (m.newChain [lowLeaf]).1.testChain acceptAll (m.newChain [lowLeaf]).2

theorem lowLeafTested_spec : ∃ m chain verdict, lowLeafTested = some (m, chain, verdict) ∧
    Reachable acceptAll (fun _ _ => false) m ∧ ReOrgFails acceptAll m chain := by
  obtain ⟨⟨m, chain, verdict⟩, testedEq⟩ :=
    Option.isSome_iff_exists.mp (by decide +kernel : lowLeafTested.isSome)
  refine ⟨m, chain, verdict, testedEq, ?_, ?_⟩
  · unfold lowLeafTested at testedEq
    obtain ⟨start, startEq, tested⟩ := Option.bind_eq_some_iff.mp testedEq
    exact .testChain ((Reachable.boot origin ()).rounds startEq) tested
  · have retested : ((lowLeafTested.bind fun tested => tested.1.revert tested.2.1).bind
        fun reverted => reverted.1.testChain acceptAll reverted.2.1).map (fun again => again.2.2) =
          some .tooLight := by decide +kernel
    rw [testedEq] at retested
    obtain ⟨⟨tested, left, last⟩, eq, rfl⟩ := Option.map_eq_some_iff.mp retested
    obtain ⟨⟨reverted, bchain, oldHead, ancestorHash⟩, revertEq, testedAgain⟩ :=
      Option.bind_eq_some_iff.mp eq
    exact ⟨reverted, bchain, oldHead, ancestorHash, tested, left, _, revertEq, testedAgain,
      by decide⟩

theorem reOrg_unchanged_iff_lowLeaf : ∃ m chain verdict,
    lowLeafTested = some (m, chain, verdict) ∧ ReOrgFails acceptAll m chain ∧
      ∃ after, m.reOrg acceptAll chain = some after ∧
        (Unchanged m after ↔ ∀ back path, chain.getLast? = some back →
          m.lineage m.nextLink back = some path →
          ∀ l ∈ path, AList.lookup (m.links l).block.hash m.workingTree = none) := by
  obtain ⟨m, chain, verdict, testedEq, reachable, fails⟩ := lowLeafTested_spec
  exact ⟨m, chain, verdict, testedEq, fails,
    reOrg_unchanged_iff acceptAll (fun _ _ => false) m reachable chain fails⟩

/-- The low leaf counts as heavier, because the recorded difficulty has the one of the
trunk in place of its own.  The reorganisation fails and the low leaf is gone. -/
theorem reOrg_lowLeaf_changes : ∃ m chain verdict after,
    lowLeafTested = some (m, chain, verdict) ∧ Reachable acceptAll (fun _ _ => false) m ∧
      ReOrgFails acceptAll m chain ∧ m.reOrg acceptAll chain = some after ∧
      ¬ Unchanged m after := by
  obtain ⟨m, chain, verdict, testedEq, reachable, fails⟩ := lowLeafTested_spec
  have lost : (lowLeafTested.bind fun tested => (tested.1.reOrg acceptAll tested.2.1).map
      fun after => ((AList.lookup lowLeaf.hash tested.1.workingTree).isSome,
        (AList.lookup lowLeaf.hash after.workingTree).isSome)) = some (true, false) := by
    decide +kernel
  rw [testedEq] at lost
  obtain ⟨after, reorganised, found⟩ := Option.map_eq_some_iff.mp lost
  refine ⟨m, chain, verdict, after, testedEq, reachable, fails, reorganised, fun unchanged => ?_⟩
  have same := congrArg Option.isSome (unchanged.workingTree lowLeaf.hash)
  obtain ⟨before, gone⟩ := Prod.mk.inj found
  exact absurd ((gone.symm.trans same).trans before) (by decide)

end ChainManager

end Thelonious
