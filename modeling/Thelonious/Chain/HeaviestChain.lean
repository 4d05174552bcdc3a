import Thelonious.Chain.Forks

/-!
# Which chain wins

A chain that extends the current block is inserted.  A fork is compared by the
total difficulty it was recorded with, which need not be its own, and then once
more by the exact one.  A reorganisation panics if the branch point is not before
the current block.
-/

namespace Thelonious

namespace ChainManager

variable {σ : Type} {m after : ChainManager σ} {tree : BlockTree}
variable {process : ChainManager σ → ChainBlock → ChainBlock → Bool × σ}

/-! ### Reorganisations -/

/-- A reorganisation tests the new chain on top of the block `ancestorHash`. -/
def Retests (process : ChainManager σ → ChainBlock → ChainBlock → Bool × σ) (m : ChainManager σ)
    (chain : List LinkRef) (ancestorHash : Bytes) (verdict : Verdict) : Prop :=
  ∃ reverted bchain oldHead tested left,
    m.revert chain = some (reverted, bchain, oldHead, ancestorHash) ∧
      reverted.testChain process bchain = some (tested, left, verdict)

namespace Sound

variable {chain path : List LinkRef} {back root : LinkRef} {ancestorHash : Bytes}
variable {verdict : Verdict}

theorem exists_retest (sound : Sound tree m)
    (process : ChainManager σ → ChainBlock → ChainBlock → Bool × σ)
    (backEq : chain.getLast? = some back) (below : back < m.nextLink) (anchored : Anchored m back)
    (pathEq : m.lineage m.nextLink back = some path) (rootEq : path.head? = some root) :
    ∃ verdict, Retests process m chain (m.links root).block.prevHash verdict := by
  obtain ⟨ancestor, ancestorEq⟩ := Option.isSome_iff_exists.mp
    (anchored.root_of_lineage pathEq rootEq)
  have oldHeadEq : m.getBlockCanonical m.currentBlockHash = some m.currentBlock := by
    rw [sound.recorded.head]
    exact sound.recorded.current
  have ancestorFound : m.getBlockCanonical (m.links root).block.prevHash = some ancestor :=
    ancestorEq
  obtain ⟨reverted, bchain, revertEq⟩ : ∃ reverted bchain, m.revert chain =
      some (reverted, bchain, m.currentBlock, (m.links root).block.prevHash) := by
    simp [revert, backEq, pathEq, rootEq, ancestorFound, oldHeadEq]
  obtain ⟨path, ancestor, allocated, reverts⟩ := reverts_of_revert revertEq
  obtain ⟨revertedSound, fresh, grafted⟩ :=
    sound.grafted_of_reverts (last_lt backEq below) reverts
  have nonempty : bchain ≠ [] := by
    obtain ⟨front, frontEq, -⟩ := reverts.front
    rintro rfl
    exact absurd frontEq (by simp)
  obtain ⟨tested, left, verdict, testedEq, -⟩ := revertedSound.exists_testChain process
    fresh grafted.linked nonempty fun l lEq => .inl (grafted.first l lEq)
  exact ⟨verdict, reverted, bchain, m.currentBlock, tested, left, revertEq, testedEq⟩

/-- The verdict on a chain that does not fail goes by the exact total difficulty. -/
theorem verdict_of_passed (sound : Sound tree m)
    (backEq : chain.getLast? = some back) (below : back < m.nextLink) {hashes : List Bytes}
    (descends : tree.Descends (m.links back).block.hash hashes)
    (retests : Retests process m chain ancestorHash verdict) (passed : verdict ≠ .failed) :
    verdict = if tree.total hashes ≤ m.td then .tooLight else .accepted := by
  obtain ⟨reverted, bchain, oldHead, tested, left, revertEq, testedEq⟩ := retests
  obtain ⟨path, ancestor, allocated, reverts⟩ := reverts_of_revert revertEq
  have pathEq := reverts.lineage_of_last backEq
  obtain ⟨revertedSound, fresh, grafted⟩ :=
    sound.grafted_of_reverts (last_lt backEq below) reverts
  obtain ⟨last, lastPath, lastEq, leads, verdictEq⟩ :=
    (revertedSound.extends_testChain grafted (sound.onTop_of_reverts reverts) testedEq
      passed).outcome
  have lastBlock : (reverted.blocksOf bchain).getLast? = some (m.links back).block := by
    rw [reverts.blocksOf_eq, blocksOf, List.getLast?_map, (sound.fits.leads below pathEq).last]
    rfl
  rw [blocksOf, List.getLast?_map, lastEq] at lastBlock
  have lastBlockEq : (reverted.links last).block = (m.links back).block :=
    Option.some.inj lastBlock
  rw [lastBlockEq] at leads
  have tdEq : reverted.td = m.td := by
    rw [reverts.reverted_eq]
    exact reverts.allocates.td_kept
  rw [verdictEq, tdEq, leads.unique descends]

/-- No block fails when the processor accepts them all. -/
theorem verdict_of_retest (sound : Sound tree m)
    (backEq : chain.getLast? = some back) (below : back < m.nextLink)
    (pathEq : m.lineage m.nextLink back = some path)
    (passes : ∀ l ∈ path, Passes process (m.links l).block) {hashes : List Bytes}
    (descends : tree.Descends (m.links back).block.hash hashes)
    (retests : Retests process m chain ancestorHash verdict) :
    verdict = if tree.total hashes ≤ m.td then .tooLight else .accepted := by
  refine sound.verdict_of_passed backEq below descends retests ?_
  obtain ⟨reverted, bchain, oldHead, tested, left, revertEq, testedEq⟩ := retests
  obtain ⟨path', ancestor, allocated, reverts⟩ := reverts_of_revert revertEq
  obtain rfl : path' = path :=
    Option.some.inj ((reverts.lineage_of_last backEq).symm.trans pathEq)
  obtain ⟨revertedSound, fresh, grafted⟩ :=
    sound.grafted_of_reverts (last_lt backEq below) reverts
  have nonempty : bchain ≠ [] := by
    obtain ⟨front, frontEq, -⟩ := reverts.front
    rintro rfl
    exact absurd frontEq (by simp)
  obtain ⟨_, _, verdict', testedEq', passed⟩ := revertedSound.exists_testChain
    process fresh grafted.linked nonempty fun l lEq => .inl (grafted.first l lEq)
  obtain ⟨-, -, rfl⟩ : _ ∧ _ ∧ verdict' = verdict := by
    simpa using Option.some.inj (testedEq'.symm.trans testedEq)
  apply passed
  intro l member
  have inPath : (reverted.links l).block ∈ m.blocksOf path' := by
    rw [← reverts.blocksOf_eq]
    exact List.mem_map_of_mem member
  obtain ⟨old, oldMember, blockEq⟩ := List.mem_map.mp inPath
  exact blockEq ▸ passes old oldMember

/-- The processed blocks pass every other test. -/
theorem passes_lineage (sound : Sound tree m)
    (fair : ∀ m block parent, (process m block parent).1 = true ↔ tree.accepted block)
    (below : back < m.nextLink) (processed : (m.links back).td.isSome)
    (pathEq : m.lineage m.nextLink back = some path) :
    ∀ l ∈ path, Passes process (m.links l).block := by
  intro l member other parent
  have isPath := ParentForest.isPath_of_pathTo pathEq
  have linkBelow := (sound.fits.leads below pathEq).below l member
  have linkProcessed := sound.fits.processed_lineage isPath below processed l member
  exact (fair other _ parent).mpr (sound.processed linkBelow linkProcessed).1

/-- A reorganisation to a chain that is heavier makes its blocks canonical. -/
theorem adopts_of_reOrg (sound : Sound tree m)
    (fair : ∀ m block parent, (process m block parent).1 = true ↔ tree.accepted block)
    (backEq : chain.getLast? = some back) (below : back < m.nextLink)
    (processed : (m.links back).td.isSome) (pathEq : m.lineage m.nextLink back = some path)
    (rootEq : path.head? = some root)
    (heavier : ∀ hashes, tree.Descends (m.links back).block.hash hashes → m.td < tree.total hashes)
    (reorganised : m.reOrg process chain = some after) :
    ∃ inserted, Adopts tree m inserted chain path ∧
      inserted.demote process m.currentBlock (m.links root).block.prevHash = some after := by
  have judges : Judges process tree := judges_of_fair fair
  obtain ⟨-, hashes, descends⟩ := sound.processed below processed
  obtain ⟨reverted, bchain, oldHead, ancestorHash, tested, left, verdict, revertEq, testedEq,
    outcome⟩ := reOrg_cases reorganised
  have accepted : verdict = .accepted := by
    rw [sound.verdict_of_retest backEq below pathEq
      (sound.passes_lineage fair below processed pathEq) descends
      ⟨reverted, bchain, oldHead, tested, left, revertEq, testedEq⟩, if_neg]
    exact not_le.mpr (heavier hashes descends)
  rcases outcome with ⟨rfl, inserted, insertedEq, demotedEq⟩ | ⟨rejected, -⟩
  · obtain ⟨path', ancestor, allocated, reverts⟩ := reverts_of_revert revertEq
    obtain ⟨_, _, _, inserted', onHead, lengthened, adopts⟩ :=
      sound.exists_inserted judges (last_lt backEq below) reverts testedEq
    obtain rfl : inserted' = inserted :=
      Option.some.inj (lengthened.symm.trans ((onHead.insertChainWith _).symm.trans insertedEq))
    obtain rfl : path' = path :=
      Option.some.inj ((reverts.lineage_of_last backEq).symm.trans pathEq)
    obtain ⟨root', rootEq', rfl⟩ := reverts.root_eq
    obtain rfl : root' = root := Option.some.inj (rootEq'.symm.trans rootEq)
    obtain rfl := sound.oldHead_of_reverts reverts
    exact ⟨inserted', adopts, demotedEq⟩
  · exact absurd accepted rejected

theorem reOrg_of_rejected (sound : Sound tree m) (rejected : verdict ≠ .accepted)
    (retests : Retests process m chain ancestorHash verdict) :
    ∃ after, m.reOrg process chain = some after ∧ after.currentBlock = m.currentBlock := by
  obtain ⟨reverted, bchain, oldHead, tested, left, revertEq, testedEq⟩ := retests
  obtain ⟨path, ancestor, allocated, reverts⟩ := reverts_of_revert revertEq
  exact ⟨_, reOrg_rejected revertEq testedEq rejected, sound.oldHead_of_reverts reverts⟩

theorem eq_of_hash_eq (sound : Sound tree m) {b : ChainBlock} {other : ChainBlock}
    (known : b = tree.genesis ∨ tree.Contains b)
    (stored : AList.lookup b.hash m.blocks = some other) : other = b := by
  have blockOf_eq : ∀ {x}, x = tree.genesis ∨ tree.Contains x → tree.blockOf x.hash = x := by
    rintro x (rfl | contained)
    · exact tree.blockOf_genesis
    · exact contained.blockOf_hash
  rw [← blockOf_eq known, ← sound.recorded.named stored, blockOf_eq (sound.stored stored)]

end Sound

theorem Adopts.lookup_kept {inserted : ChainManager σ} {chain path : List LinkRef}
    (adopts : Adopts tree m inserted chain path) (sound : Sound tree m) {hash : Bytes}
    {b : ChainBlock} (found : AList.lookup hash m.blocks = some b) :
    AList.lookup hash inserted.blocks = some b := by
  obtain ⟨other, stored⟩ := Option.isSome_iff_exists.mp
    (adopts.stored_kept (Option.isSome_of_eq_some found))
  have hashEq := sound.recorded.named found
  subst hashEq
  rw [adopts.sound.eq_of_hash_eq (sound.stored found) stored] at stored
  exact stored

namespace Sound

variable {chain path : List LinkRef} {back root : LinkRef} {ancestorHash : Bytes}
variable {verdict : Verdict}

/-- The old canonical blocks can be moved when the walk from the old head meets the branch
point further down. -/
theorem exists_demote (sound : Sound tree m) {oldHead : ChainBlock} {hashes : List Bytes}
    (stored : AList.lookup oldHead.hash m.blocks = some oldHead)
    (descends : tree.Descends oldHead.hash hashes)
    (member : ancestorHash ∈ tree.genesis.hash :: hashes) (different : ancestorHash ≠ oldHead.hash)
    (ancestorStored : (AList.lookup ancestorHash m.blocks).isSome) :
    ∃ after, m.demote process oldHead ancestorHash = some after := by
  have short := sound.length_lt_known (Option.isSome_of_eq_some stored) descends
  obtain ⟨blocks, walked⟩ :=
    sound.exists_blocksAbove stored descends member (Nat.lt_succ_of_le short)
  have between := between_blocksAbove sound.recorded walked
  have contained := sound.contains_blocksAbove (sound.stored stored) walked
  have allocates := allocates_newChain m blocks
  have linked : HashLinked ((m.newChain blocks).1.blocksOf (m.newChain blocks).2) := by
    rw [blocksOf, allocates.blocks_eq]
    exact between.linked
  have nonempty : (m.newChain blocks).2 ≠ [] := by
    intro empty
    have blocksEmpty := allocates.blocks_eq
    rw [empty] at blocksEmpty
    have last := between.last
    rw [if_neg (Ne.symm different), ← blocksEmpty] at last
    exact absurd last (by simp)
  have first : ∀ l ∈ (m.newChain blocks).2.head?,
      (m.newChain blocks).1.Known ((m.newChain blocks).1.links l).block.prevHash := by
    intro l lEq
    have firstEq : blocks.head? = some ((m.newChain blocks).1.links l).block := by
      refine (congrArg List.head? allocates.blocks_eq).symm.trans ?_
      rw [List.head?_map, lEq]
      rfl
    left
    rw [between.first _ firstEq, allocates.blocks_kept]
    exact ancestorStored
  obtain ⟨after, left, verdict, tested, -⟩ :=
    (sound.allocates contained allocates).exists_testChain process
      (allocates.isFresh sound.recorded) linked nonempty first
  exact ⟨after, by simp [ChainManager.demote, walked, tested]⟩

/-- A reorganisation whose new chain is accepted returns if and only if the branch point is
before the current block; the new head is the last block of the chain. -/
theorem reOrg_of_accepted (sound : Sound tree m) (current : Current tree m)
    (judges : Judges process tree) (backEq : chain.getLast? = some back) (below : back < m.nextLink)
    (retests : Retests process m chain ancestorHash .accepted) :
    ((∃ after, m.reOrg process chain = some after) ↔ m.Behind ancestorHash) ∧
      ∀ after, m.reOrg process chain = some after →
        after.currentBlock = (m.links back).block := by
  obtain ⟨reverted, bchain, oldHead, tested, left, revertEq, testedEq⟩ := retests
  obtain ⟨path, ancestor, allocated, reverts⟩ := reverts_of_revert revertEq
  obtain ⟨_, _, _, inserted, onHead, lengthened, adopts⟩ :=
    sound.exists_inserted judges (last_lt backEq below) reverts testedEq
  rw [reOrg_accepted revertEq testedEq ((onHead.insertChainWith _).trans lengthened)]
  have oldHeadKnown := sound.stored reverts.oldHead_eq
  obtain rfl := sound.oldHead_of_reverts reverts
  obtain ⟨hashes, descends, -⟩ := current
  have ancestorStored : (AList.lookup ancestorHash m.blocks).isSome :=
    Option.isSome_of_eq_some reverts.ancestor_eq
  have headStored := adopts.lookup_kept sound sound.recorded.current
  rw [sound.behind_iff descends ancestorStored]
  constructor
  · constructor
    · rintro ⟨after, demoted⟩
      obtain ⟨blocks, allocated', moved, left', verdict', walked, allocates, retested⟩ :=
        demote_cases demoted
      refine ⟨adopts.sound.behind_of_blocksAbove headStored descends walked, ?_⟩
      -- the walk would leave nothing to test
      rintro rfl
      have empty := (between_blocksAbove adopts.sound.recorded walked).last
      rw [if_pos rfl] at empty
      obtain rfl := List.getLast?_eq_none_iff.mp empty
      obtain rfl : moved = [] := List.map_eq_nil_iff.mp allocates.blocks_eq
      obtain ⟨front, -, -, frontEq, -⟩ := testChain_cases retested
      exact absurd frontEq (by simp)
    · rintro ⟨member, different⟩
      exact adopts.sound.exists_demote headStored descends member different
        (adopts.stored_kept ancestorStored)
  · intro after demoted
    have canonicalEq := (adopts.sound.demote judges oldHeadKnown demoted).2
    have currentEq : after.currentBlock = inserted.currentBlock :=
      congrArg CanonicalPart.currentBlock canonicalEq
    rw [currentEq, adopts.head_eq back backEq]

end Sound

/-! ### Rounds -/

/-- Runs of rounds with proper chains, in which checkpoints are set but no block of a
checkpoint is received. -/
inductive ProperRun (process : ChainManager σ → ChainBlock → ChainBlock → Bool × σ)
    (tree : BlockTree) : ChainManager σ → Prop
  | boot (processor : σ) : ProperRun process tree (boot tree.genesis processor)
  | round {m after : ChainManager σ} {blocks : List ChainBlock} : ProperRun process tree m →
      Proper tree m blocks → m.present process blocks = some after → ProperRun process tree after
  | checkPoint {m : ChainManager σ} (satisfies : Bytes → ChainManager σ → Bool)
      (proposed : Option Bytes) : ProperRun process tree m →
      ProperRun process tree (m.checkPoint satisfies proposed)
  | receiveCheckPointBlock {m : ChainManager σ} {block : Option ChainBlock} :
      ProperRun process tree m → (∀ b ∈ block, b.hash ≠ m.latestCheckPointHash) →
      ProperRun process tree (m.receiveCheckPointBlock block).1

theorem Sound.updateCheckpoint (sound : Sound tree m) (hash : Bytes) :
    Sound tree (m.updateCheckpoint hash) where
  recorded := sound.recorded.updateCheckpoint hash
  fits := ⟨sound.fits.parents, sound.fits.processed, fun kept =>
    (sound.fits.anchored kept).congr rfl rfl⟩
  origin := sound.origin
  before := sound.before
  stored := sound.stored
  approved := sound.approved
  descends := sound.descends
  informed := sound.informed
  exactly := sound.exactly
  link := sound.link
  processed := sound.processed

theorem Sound.checkPoint (sound : Sound tree m) (current : Current tree m)
    (satisfies : Bytes → ChainManager σ → Bool) (proposed : Option Bytes) :
    Sound tree (m.checkPoint satisfies proposed) ∧
      Current tree (m.checkPoint satisfies proposed) := by
  cases proposed with
  | none => exact ⟨sound, current⟩
  | some hash =>
      simp only [ChainManager.checkPoint]
      split
      · exact ⟨sound.updateCheckpoint hash, current⟩
      · split
        · exact ⟨sound.updateCheckpoint hash, current⟩
        · exact ⟨sound, current⟩

/-- A block that is not the one of the checkpoint is not received. -/
theorem receiveCheckPointBlock_of_ne {block : Option ChainBlock}
    (other : ∀ b ∈ block, b.hash ≠ m.latestCheckPointHash) :
    (m.receiveCheckPointBlock block).1 = m := by
  cases block with
  | none => rfl
  | some b => simp [receiveCheckPointBlock, other b rfl]

theorem ProperRun.sound (judges : Judges process tree) (run : ProperRun process tree m) :
    Sound tree m ∧ Current tree m := by
  induction run with
  | boot processor => exact ⟨.boot tree processor, [], .root, rfl⟩
  | round _ proper presented induction =>
      exact induction.1.present induction.2 judges proper presented
  | checkPoint satisfies proposed _ induction =>
      exact induction.1.checkPoint induction.2 satisfies proposed
  | receiveCheckPointBlock _ other induction =>
      rw [receiveCheckPointBlock_of_ne other]
      exact induction

section Round

variable {blocks : List ChainBlock} {first last : ChainBlock} {tested : ChainManager σ}
variable {left : List LinkRef} {verdict : Verdict}

/-- A chain of valid blocks with a known first parent passes its test. -/
theorem Sound.exists_passed {allocated : ChainManager σ} {chain : List LinkRef}
    (sound : Sound tree m) (proper : Proper tree m blocks)
    (allocates : Allocates m blocks allocated chain) (firstEq : blocks.head? = some first)
    (known : m.Known first.prevHash) (passes : ∀ b ∈ blocks, Passes process b) :
    ∃ tested left verdict, allocated.testChain process chain = some (tested, left, verdict) ∧
      verdict ≠ .failed := by
  have links := sound.newLinks proper allocates
  obtain ⟨front, frontEq, blockEq⟩ := allocates.head firstEq
  have linkKnown : ∀ l ∈ chain.head?, allocated.Known (allocated.links l).block.prevHash := by
    intro l lEq
    obtain rfl : front = l := Option.some.inj (frontEq.symm.trans lEq)
    rw [blockEq, Known, allocates.blocks_kept, allocates.workingTree_eq]
    exact known
  obtain ⟨tested, left, verdict, testedEq, passed⟩ := links.sound.exists_testChain process
    links.fresh links.linked (List.ne_nil_of_mem (List.mem_of_mem_head? frontEq)) linkKnown
  exact ⟨tested, left, verdict, testedEq,
    passed fun l member => passes _ (allocates.block_mem member)⟩

/-- What a chain on top of the current block adds. -/
theorem Current.total_on_top (current : Current tree m) (proper : Proper tree m blocks)
    (firstEq : blocks.head? = some first) (lastEq : blocks.getLast? = some last)
    (onTop : first.prevHash = m.currentBlock.hash) {path : List Bytes}
    (ancestry : tree.Descends last.hash path) :
    tree.total path = m.td + (blocks.map ChainBlock.weight).sum := by
  obtain ⟨hashes, descends, totalEq⟩ := current
  have whole := BlockTree.descends_last descends proper.linked proper.contained
    (fun b bEq => Option.some.inj (firstEq.symm.trans bEq) ▸ onTop) lastEq
  rw [ancestry.unique whole, BlockTree.total_append, BlockTree.total_hashes proper.contained,
    totalEq]

variable (sound : Sound tree m) (proper : Proper tree m blocks)
variable (firstEq : blocks.head? = some first)
variable (testedEq : (m.newChain blocks).1.testChain process (m.newChain blocks).2 =
  some (tested, left, verdict)) (passed : verdict ≠ .failed)

include sound proper firstEq testedEq passed

/-- A chain that has passed its test has a known first parent. -/
theorem Sound.known_of_tested : m.Known first.prevHash := by
  have allocates := allocates_newChain m blocks
  have new := sound.newLinks proper allocates
  obtain ⟨front, frontEq, blockEq⟩ := allocates.head firstEq
  obtain ⟨_, processed, lastTd, -, processedEq, outcome⟩ := testChain_cases testedEq
  have processing := Processing.setWorkingChain new.sound new.fresh.below
  obtain ⟨rest, chainEq⟩ := List.head?_eq_some_iff.mp frontEq
  have succeeded : lastTd ≠ none := by
    rintro rfl
    rcases outcome with ⟨-, failed, -⟩ | ⟨td, -, absurdity, -⟩
    · exact passed failed
    · exact absurd absurdity (by simp)
  rw [chainEq] at processedEq
  rcases processChain_cons processedEq with ⟨-, -, failed⟩ | ⟨parent, processor, parentEq,
    ⟨-, -, failed⟩ | ⟨own, -, calculated, -⟩⟩
  · exact absurd failed succeeded
  · exact absurd failed succeeded
  rw [← chainEq] at calculated
  obtain ⟨parent, parentTd, parentEq, parentTdEq, -⟩ := processing.calcTotalDiff_cases calculated
  have prevEq : (((m.newChain blocks).1.setWorkingChain (m.newChain blocks).2).links
      front).block.prevHash = first.prevHash := congrArg _ blockEq
  rw [prevEq] at parentEq parentTdEq
  rw [Known, ← allocates.blocks_kept, ← allocates.workingTree_eq]
  rcases processing.blockInfoTD_cases parentEq with ⟨stored, -⟩ |
    ⟨-, ⟨l, inTree, -⟩ | ⟨-, l, found, tdEq⟩⟩
  · exact .inl stored
  · exact .inr (Option.isSome_of_eq_some inTree)
  · -- the links of the chain have no total difficulty yet
    have blank : (((m.newChain blocks).1.setWorkingChain (m.newChain blocks).2).links l).td =
        none :=
      (allocates.blank (hash_of_findWorking found).1).1
    rw [blank, parentTdEq] at tdEq
    exact absurd tdEq (by simp)

theorem Sound.extends_on_top (onTop : first.prevHash = m.currentBlock.hash) :
    Extends tree (m.newChain blocks).1 tested (m.newChain blocks).2 left verdict := by
  have allocates := allocates_newChain m blocks
  have new := sound.newLinks proper allocates
  have onTops : ∀ l ∈ (m.newChain blocks).2.head?,
      ((m.newChain blocks).1.links l).block.prevHash = (m.newChain blocks).1.currentBlock.hash := by
    intro l lEq
    obtain ⟨front, frontEq, blockEq⟩ := allocates.head firstEq
    obtain rfl : front = l := Option.some.inj (frontEq.symm.trans lEq)
    rw [blockEq, onTop, allocates.currentBlock_kept]
  exact new.sound.extends_testChain (new.grafted onTops) onTops testedEq passed

/-- A chain on top of the current block is accepted if it adds something. -/
theorem Sound.accepted_on_top (current : Current tree m)
    (onTop : first.prevHash = m.currentBlock.hash)
    (adds : 0 < (blocks.map ChainBlock.weight).sum) : verdict = .accepted := by
  have allocates := allocates_newChain m blocks
  obtain ⟨back, path, backEq, descends, verdictEq⟩ :=
    (sound.extends_on_top proper firstEq testedEq passed onTop).outcome
  have lastEq := congrArg List.getLast? allocates.blocks_eq
  rw [List.getLast?_map, backEq] at lastEq
  have totalEq := current.total_on_top proper firstEq lastEq.symm onTop descends
  rw [verdictEq, if_neg]
  rw [totalEq, allocates.td_kept]
  omega

/-- A chain on top of the current block is inserted. -/
theorem Sound.extension_round (judges : Judges process tree)
    (lastEq : blocks.getLast? = some last) (onTop : first.prevHash = m.currentBlock.hash) :
    ∃ after, tested.insertChain process left = some after ∧ after.currentBlock = last ∧
      tested.workingTree = m.workingTree ∧
      tested.lengthen (m.newChain blocks).2 = some after := by
  have allocates := allocates_newChain m blocks
  have new := sound.newLinks proper allocates
  have touches := (touches_testChain testedEq allocates.nodup).1
  obtain ⟨front, frontEq, blockEq⟩ := allocates.head firstEq
  have extended := sound.extends_on_top proper firstEq testedEq passed onTop
  obtain rfl := extended.left_eq
  obtain ⟨back, -, backEq, -⟩ := extended.outcome
  obtain ⟨after, lengthened⟩ : ∃ after, tested.lengthen (m.newChain blocks).2 = some after := by
    apply exists_lengthen
    intro l member
    obtain ⟨path, -, tdEq⟩ := extended.exactly l member
    exact Option.isSome_of_eq_some tdEq
  have found : tested.getBlock (tested.links front).block.prevHash = some tested.currentBlock := by
    have testedSound := new.sound.testChain judges new.fresh new.linked testedEq
    rw [touches.block_eq, blockEq, onTop, ← allocates.currentBlock_kept, ← touches.currentBlock_eq]
    exact Sound.getBlock_stored testedSound.recorded.current
  have onHead : OnHead tested (m.newChain blocks).2 front back tested.currentBlock :=
    ⟨frontEq, backEq, found, rfl⟩
  refine ⟨after, (onHead.insertChainWith _).trans lengthened, ?_,
    extended.workingTree_eq.trans allocates.workingTree_eq, lengthened⟩
  rw [currentBlock_lengthen lengthened backEq, touches.block_eq]
  have lastBlock := congrArg List.getLast? allocates.blocks_eq
  rw [List.getLast?_map, backEq, lastEq] at lastBlock
  exact Option.some.inj lastBlock

/-- A fork is inserted, if at all, by a reorganisation that goes back to its branch
point. -/
theorem Sound.fork_round (judges : Judges process tree) (lastEq : blocks.getLast? = some last)
    (known : m.Known first.prevHash) (away : first.prevHash ≠ m.currentBlock.hash) :
    ∃ back path root, left.getLast? = some back ∧ back < tested.nextLink ∧
      (tested.links back).block = last ∧ (tested.links back).td.isSome ∧ Anchored tested back ∧
      tested.lineage tested.nextLink back = some path ∧ path.head? = some root ∧
      (tested.links root).block.prevHash = m.branchHash first ∧
      tested.insertChain process left =
        if m.td < m.forkTd blocks then tested.reOrg process left else some tested := by
  have allocates := allocates_newChain m blocks
  have new := sound.newLinks proper allocates
  have touches := (touches_testChain testedEq allocates.nodup).1
  have testedSound := new.sound.testChain judges new.fresh new.linked testedEq
  have forked := new.forked allocates sound judges firstEq known away testedEq passed
  obtain rfl := new.left_eq judges testedEq
  obtain ⟨front, frontEq, frontBlock⟩ := allocates.head firstEq
  have lastBlock := congrArg List.getLast? allocates.blocks_eq
  rw [List.getLast?_map, lastEq] at lastBlock
  obtain ⟨back, backEq, backBlock⟩ := Option.map_eq_some_iff.mp lastBlock
  have backMember := List.mem_of_getLast? backEq
  have below : back < tested.nextLink := by
    rw [touches.nextLink_eq]
    exact new.fresh.below back backMember
  have tdEq := forked.td_eq back backMember
  obtain ⟨path, pathEq⟩ := testedSound.fits.exists_lineage below
  obtain ⟨root, rootEq, branchEq⟩ := forked.root_eq allocates sound firstEq backEq pathEq
  refine ⟨back, path, root, backEq, below, (touches.block_eq back).trans backBlock,
    Option.isSome_of_eq_some tdEq, testedSound.fits.anchored (forked.found back backMember), pathEq,
    rootEq, branchEq, ?_⟩
  have prevEq : (tested.links front).block.prevHash = first.prevHash := by
    rw [touches.block_eq, frontBlock]
  have testedKnown : tested.Known first.prevHash := by
    rcases known with stored | inTree
    · left
      rw [touches.blocks_eq, allocates.blocks_kept]
      exact stored
    · right
      apply lookup_testChain_isSome testedEq allocates.nodup
      rw [allocates.workingTree_eq]
      exact inTree
  obtain ⟨parent, parentEq⟩ := testedKnown.exists_getBlock
  have different : tested.currentBlock.hash ≠ parent.hash := by
    rw [testedSound.recorded.hash_of_getBlock parentEq, touches.currentBlock_eq,
      allocates.currentBlock_kept]
    exact Ne.symm away
  have testedTd : tested.td = m.td := touches.td_eq.trans allocates.td_kept
  rw [← prevEq] at parentEq
  rw [ChainManager.insertChain, insertChainWith_forks frontEq backEq parentEq different tdEq,
    testedTd]

end Round

/-- `InsertChain` returns after a test without another error, if the chain is on top of the
current block, recorded as not heavier, branches off before the current block, or is
not heavier by the sum of the difficulties. -/
theorem insertChain_returns (process : ChainManager σ → ChainBlock → ChainBlock → Bool × σ)
    (tree : BlockTree) (judges : Judges process tree) (m : ChainManager σ)
    (run : ProperRun process tree m) (blocks : List ChainBlock) (proper : Proper tree m blocks)
    (first : ChainBlock) (firstEq : blocks.head? = some first) (tested : ChainManager σ)
    (left : List LinkRef) (verdict : Verdict)
    (testedEq : (m.newChain blocks).1.testChain process (m.newChain blocks).2 =
      some (tested, left, verdict)) (passed : verdict ≠ .failed)
    (fits : first.prevHash = m.currentBlock.hash ∨ m.forkTd blocks ≤ m.td ∨
      m.Behind (m.branchHash first) ∨ ∀ last ∈ blocks.getLast?, ∀ path,
        tree.Descends last.hash path → tree.total path ≤ m.td) :
    ∃ after, tested.insertChain process left = some after := by
  obtain ⟨sound, current⟩ := run.sound judges
  obtain ⟨last, lastEq⟩ := exists_getLast?_of_head? firstEq
  by_cases onTop : first.prevHash = m.currentBlock.hash
  · obtain ⟨after, inserted, -⟩ :=
      sound.extension_round proper firstEq testedEq passed judges lastEq onTop
    exact ⟨after, inserted⟩
  · have allocates := allocates_newChain m blocks
    have new := sound.newLinks proper allocates
    have touches := (touches_testChain testedEq allocates.nodup).1
    have testedSound := new.sound.testChain judges new.fresh new.linked testedEq
    have canonicalEq := touches.canonical_eq.trans allocates.canonical_eq
    have known := sound.known_of_tested proper firstEq testedEq passed
    obtain ⟨back, path, root, backEq, below, backBlock, processed, anchored, pathEq, rootEq,
      branchEq, insertEq⟩ :=
      sound.fork_round proper firstEq testedEq passed judges lastEq known onTop
    rw [insertEq]
    split
    · rename_i heavier
      obtain ⟨verdict', retests⟩ := testedSound.exists_retest process backEq below
        anchored pathEq rootEq
      rw [branchEq] at retests
      by_cases accepted : verdict' = .accepted
      · subst accepted
        have behind : m.Behind (m.branchHash first) := by
          rcases fits with same | lighter | behind | light
          · exact absurd same onTop
          · exact absurd heavier lighter.not_gt
          · exact behind
          · -- the second test would not accept the chain
            obtain ⟨-, hashes, descends⟩ := testedSound.processed below processed
            have verdictEq :=
              testedSound.verdict_of_passed backEq below descends retests (by decide)
            have tdEq : tested.td = m.td := congrArg CanonicalPart.td canonicalEq
            rw [tdEq, if_pos (light last lastEq hashes (backBlock ▸ descends))] at verdictEq
            exact absurd verdictEq (by decide)
        refine (testedSound.reOrg_of_accepted (current.of_canonical_eq canonicalEq) judges backEq
          below retests).1.mpr ?_
        exact behind.congr (congrArg CanonicalPart.blocks canonicalEq)
          (congrArg CanonicalPart.currentBlock canonicalEq)
      · obtain ⟨after, reorganised, -⟩ := testedSound.reOrg_of_rejected accepted retests
        exact ⟨after, reorganised⟩
    · exact ⟨tested, rfl⟩

/-- The sample blocks. -/
def sampleTree : BlockTree :=
  BlockTree.ofList origin [trunk, twig, rival, lowLeaf, highLeaf, twigLeaf] (fun _ => True)
    (by decide +kernel)

theorem sampleTree_contains {b : ChainBlock}
    (member : b ∈ [trunk, twig, rival, lowLeaf, highLeaf, twigLeaf]) : sampleTree.Contains b :=
  BlockTree.contains_ofList (by decide +kernel) (by decide +kernel) member

theorem exists_trunk_round : ∃ m, (boot origin ()).present acceptAll [trunk] = some m ∧
    ProperRun acceptAll sampleTree m := by
  obtain ⟨m, presented⟩ := Option.isSome_iff_exists.mp
    (by decide +kernel : ((boot origin ()).present acceptAll [trunk]).isSome)
  refine ⟨m, presented, .round (.boot ()) ⟨.singleton _, fun b member => ?_, fun b _ => ?_⟩
    presented⟩
  · exact sampleTree_contains (by simp [List.mem_singleton.mp member])
  · exact AList.lookup_empty b.hash

theorem insertChain_returns_twig : ∃ m tested left,
    (boot origin ()).present acceptAll [trunk] = some m ∧
      (m.newChain [twig]).1.testChain acceptAll (m.newChain [twig]).2 =
        some (tested, left, .tooLight) ∧
      m.forkTd [twig] ≤ m.td ∧ ∃ after, tested.insertChain acceptAll left = some after := by
  obtain ⟨m, presented, run⟩ := exists_trunk_round
  have values : ((boot origin ()).present acceptAll [trunk]).map (fun m =>
      (AList.lookup twig.hash m.workingTree, decide (m.forkTd [twig] ≤ m.td),
        ((m.newChain [twig]).1.testChain acceptAll (m.newChain [twig]).2).map fun t => t.2.2)) =
      some (none, true, some .tooLight) := by decide +kernel
  rw [presented] at values
  obtain ⟨absent, lighter, tested⟩ := by simpa using values
  obtain ⟨t, left, testedEq⟩ := tested
  have proper : Proper sampleTree m [twig] := by
    refine ⟨.singleton _, fun b member => ?_, fun b member => ?_⟩
    · exact sampleTree_contains (by simp [List.mem_singleton.mp member])
    · rw [List.mem_singleton.mp member]
      exact absent
  exact ⟨m, t, left, presented, testedEq, lighter, insertChain_returns acceptAll sampleTree
    (fun _ => trivial) m run [twig] proper twig rfl t left .tooLight testedEq (by decide)
    (.inr (.inl lighter))⟩

/-- The twig is presented a second time: the test removes it from the chain, and
`InsertChain` has no first block. -/
theorem insertChain_of_known_fork_panics : ∃ m tested,
    rounds acceptAll (boot origin ()) [[trunk], [twig]] = some m ∧
      (m.newChain [twig]).1.testChain acceptAll (m.newChain [twig]).2 =
        some (tested, [], .tooLight) ∧ tested.insertChain acceptAll [] = none := by
  have outcome : ((rounds acceptAll (boot origin ()) [[trunk], [twig]]).bind fun m =>
      ((m.newChain [twig]).1.testChain acceptAll (m.newChain [twig]).2).map fun t => t.2) =
        some ([], .tooLight) := by decide +kernel
  obtain ⟨m, run, outcome⟩ := Option.bind_eq_some_iff.mp outcome
  obtain ⟨⟨tested, left, verdict⟩, testedEq, eq⟩ := Option.map_eq_some_iff.mp outcome
  cases eq
  exact ⟨m, tested, run, testedEq, rfl⟩

/-! ### The heaviest chain -/

/-- After a round with a chain of new valid blocks, the current block is its last one if
the sum of the difficulties up to it is larger than the total difficulty, and
otherwise the same as before, exactly in these cases: a chain on top of the current
block adds something; a heavier fork is also recorded as heavier, and branches off
before the current block. -/
theorem heaviest_chain_wins_iff (process : ChainManager σ → ChainBlock → ChainBlock → Bool × σ)
    (tree : BlockTree)
    (fair : ∀ m block parent, (process m block parent).1 = true ↔ tree.accepted block)
    (m : ChainManager σ) (run : ProperRun process tree m) (blocks : List ChainBlock)
    (first last : ChainBlock) (firstEq : blocks.head? = some first)
    (lastEq : blocks.getLast? = some last) (proper : Proper tree m blocks)
    (new : ∀ b ∈ blocks, AList.lookup b.hash m.blocks = none)
    (valid : ∀ b ∈ blocks, tree.accepted b) (known : m.Known first.prevHash) (path : List Bytes)
    (ancestry : tree.Descends last.hash path) :
    (∃ after, m.present process blocks = some after ∧ after.currentBlock =
        if m.td < tree.total path then last else m.currentBlock) ↔
      if first.prevHash = m.currentBlock.hash then 0 < (blocks.map ChainBlock.weight).sum
      else m.td < tree.total path → m.td < m.forkTd blocks ∧ m.Behind (m.branchHash first) := by
  have judges : Judges process tree := judges_of_fair fair
  obtain ⟨sound, current⟩ := run.sound judges
  have allocates := allocates_newChain m blocks
  have links := sound.newLinks proper allocates
  obtain ⟨tested, left, verdict, testedEq, passed⟩ := sound.exists_passed proper allocates
    firstEq known fun b member m parent => (fair m b parent).mpr (valid b member)
  have presentEq : m.present process blocks = tested.insertChain process left := by
    simp [present, testedEq, passed]
  have touches := (touches_testChain testedEq allocates.nodup).1
  have canonicalEq := touches.canonical_eq.trans allocates.canonical_eq
  have currentEq : tested.currentBlock = m.currentBlock :=
    congrArg CanonicalPart.currentBlock canonicalEq
  have tdEq : tested.td = m.td := congrArg CanonicalPart.td canonicalEq
  have lastNew : last ≠ m.currentBlock := by
    rintro rfl
    have absent := new _ (List.mem_of_getLast? lastEq)
    rw [sound.recorded.current] at absent
    exact absurd absent (by simp)
  rw [presentEq]
  by_cases onTop : first.prevHash = m.currentBlock.hash
  · rw [if_pos onTop]
    obtain ⟨after, inserted, headEq, -⟩ :=
      sound.extension_round proper firstEq testedEq passed judges lastEq onTop
    rw [inserted, current.total_on_top proper firstEq lastEq onTop ancestry]
    constructor
    · rintro ⟨_, eq, outcome⟩
      cases eq
      by_contra nothing
      rw [if_neg (by omega)] at outcome
      exact lastNew (headEq.symm.trans outcome)
    · intro positive
      refine ⟨after, rfl, ?_⟩
      rw [if_pos (by omega)]
      exact headEq
  · rw [if_neg onTop]
    have testedSound := links.sound.testChain judges links.fresh links.linked testedEq
    obtain ⟨back, walk, root, backEq, below, backBlock, processed, anchored, walkEq, rootEq,
      branchEq, insertEq⟩ :=
      sound.fork_round proper firstEq testedEq passed judges lastEq known onTop
    rw [insertEq]
    by_cases heavier : m.td < m.forkTd blocks
    · rw [if_pos heavier]
      obtain ⟨verdict', retests⟩ := testedSound.exists_retest process backEq below
        anchored walkEq rootEq
      have walkPasses := testedSound.passes_lineage fair below processed walkEq
      have verdictEq := testedSound.verdict_of_retest backEq below walkEq walkPasses
        (backBlock ▸ ancestry) retests
      rw [tdEq] at verdictEq
      by_cases more : m.td < tree.total path
      · rw [if_neg (not_le.mpr more)] at verdictEq
        subst verdictEq
        rw [if_pos more]
        obtain ⟨returns_iff, headEq⟩ := testedSound.reOrg_of_accepted
          (current.of_canonical_eq canonicalEq) judges backEq below retests
        rw [branchEq] at returns_iff
        constructor
        · rintro ⟨after, reorganised, -⟩ _
          refine ⟨heavier, ?_⟩
          exact (returns_iff.mp ⟨after, reorganised⟩).congr
            (congrArg CanonicalPart.blocks canonicalEq).symm
            currentEq.symm
        · intro fits
          obtain ⟨after, reorganised⟩ := returns_iff.mpr
            ((fits more).2.congr (congrArg CanonicalPart.blocks canonicalEq) currentEq)
          exact ⟨after, reorganised, (headEq after reorganised).trans backBlock⟩
      · rw [if_pos (not_lt.mp more)] at verdictEq
        rw [if_neg more]
        obtain ⟨after, reorganised, headEq⟩ :=
          testedSound.reOrg_of_rejected (verdictEq ▸ by decide) retests
        constructor
        · intro _ heavy
          exact absurd heavy more
        · intro _
          exact ⟨after, reorganised, headEq.trans currentEq⟩
    · rw [if_neg heavier]
      constructor
      · rintro ⟨after, eq, outcome⟩ more
        cases eq
        rw [if_pos more, currentEq] at outcome
        exact absurd outcome.symm lastNew
      · intro fits
        refine ⟨tested, rfl, ?_⟩
        rw [if_neg fun more => heavier (fits more).1]
        exact currentEq

/-- The high leaf is presented when the low leaf is the current block. -/
theorem heaviest_chain_wins_iff_lowLeaf : ∃ m,
    rounds acceptAll (boot origin ()) [[trunk], [lowLeaf]] = some m ∧
    highLeaf.prevHash ≠ m.currentBlock.hash ∧
    ((∃ after, m.present acceptAll [highLeaf] = some after ∧ after.currentBlock =
        if m.td < sampleTree.total [trunk.hash, highLeaf.hash] then highLeaf
        else m.currentBlock) ↔
      if highLeaf.prevHash = m.currentBlock.hash then 0 < ([highLeaf].map ChainBlock.weight).sum
      else m.td < sampleTree.total [trunk.hash, highLeaf.hash] →
        m.td < m.forkTd [highLeaf] ∧ m.Behind (m.branchHash highLeaf)) := by
  obtain ⟨start, presented, startRun⟩ := exists_trunk_round
  have values : (((boot origin ()).present acceptAll [trunk]).bind fun start =>
      (start.present acceptAll [lowLeaf]).map fun m =>
        (AList.lookup lowLeaf.hash start.workingTree, AList.lookup highLeaf.hash m.workingTree,
          AList.lookup highLeaf.hash m.blocks,
          (AList.lookup highLeaf.prevHash m.blocks).isSome,
          decide (highLeaf.prevHash ≠ m.currentBlock.hash))) =
        some (none, none, none, true, true) := by
    decide +kernel
  rw [presented, Option.bind_some] at values
  obtain ⟨m, again, all⟩ := Option.map_eq_some_iff.mp values
  obtain ⟨absentLow, absent, new, stored, away⟩ := by simpa using all
  have contained : ∀ b ∈ [trunk, lowLeaf, highLeaf], sampleTree.Contains b := by
    intro b member
    apply sampleTree_contains
    fin_cases member <;> simp
  have run : ProperRun acceptAll sampleTree m := by
    refine startRun.round ⟨.singleton _, fun b member => ?_, fun b member => ?_⟩ again
    · exact contained b (by simp [List.mem_singleton.mp member])
    · exact List.mem_singleton.mp member ▸ absentLow
  have ancestry : sampleTree.Descends highLeaf.hash [trunk.hash, highLeaf.hash] := by
    have trunkDescends : sampleTree.Descends trunk.hash ([] ++ [trunk.hash]) := by
      apply (contained trunk (by simp)).descends
      have onOrigin : trunk.prevHash = origin.hash := by decide +kernel
      exact onOrigin ▸ .root
    have onTrunk : highLeaf.prevHash = trunk.hash := by decide +kernel
    exact (contained highLeaf (by simp)).descends (onTrunk ▸ trunkDescends)
  refine ⟨m, by simp [rounds, presented, again], away, heaviest_chain_wins_iff acceptAll sampleTree
    (fun _ _ _ => ⟨fun _ => trivial, fun _ => rfl⟩) m run [highLeaf] highLeaf highLeaf rfl rfl
    ⟨.singleton _, ?_, ?_⟩ ?_ (fun _ _ => trivial) (.inl stored) _ ancestry⟩
  · exact fun b member => contained b (by simp [List.mem_singleton.mp member])
  · exact fun b member => List.mem_singleton.mp member ▸ absent
  · exact fun b member => List.mem_singleton.mp member ▸ new

/-- The rival of the trunk is twice as heavy, but it is recorded with the difficulty of
genesis, and the trunk stays the current block. -/
theorem heavier_rival_ignored :
    ((rounds acceptAll (boot origin ()) [[trunk], [rival]]).map fun m => (m.currentBlock, m.td)) =
        some (trunk, 10) ∧
      rival.prevHash = origin.hash ∧ rival.weight = 20 ∧ rival ≠ trunk := by
  decide +kernel

end ChainManager

end Thelonious
