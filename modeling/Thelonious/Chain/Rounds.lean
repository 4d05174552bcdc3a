import Thelonious.Chain.Exactness

/-!
# Rounds

A round tests a chain and inserts it.  When the chains are hash-linked and bring
blocks that the working tree does not have, every round keeps the records of the
database exact: a chain that is inserted has been tested on top of a canonical
block, if need be once more by the reorganisation.
-/

namespace Thelonious

namespace ChainManager

variable {σ : Type} {m after : ChainManager σ} {tree : BlockTree}
variable {process : ChainManager σ → ChainBlock → ChainBlock → Bool × σ}

/-- Testing a chain on top of the current block. -/
structure Extends (tree : BlockTree) (m after : ChainManager σ) (chain left : List LinkRef)
    (verdict : Verdict) : Prop where
  left_eq : left = chain
  workingTree_eq : after.workingTree = m.workingTree
  parent_eq (l : LinkRef) : (after.links l).parent = (m.links l).parent
  exactly : ∀ l ∈ chain, Exact tree after l
  outcome : ∃ back path, chain.getLast? = some back ∧
    tree.Descends (m.links back).block.hash path ∧
    verdict = if tree.total path ≤ m.td then .tooLight else .accepted

variable {chain : List LinkRef} {blocks : List ChainBlock} {allocated : ChainManager σ}

theorem Sound.extends_testChain (sound : Sound tree m) {left : List LinkRef} {verdict : Verdict}
    (grafted : Grafted m chain)
    (onTop : ∀ front ∈ chain.head?, (m.links front).block.prevHash = m.currentBlock.hash)
    (tested : m.testChain process chain = some (after, left, verdict))
    (passed : verdict ≠ .failed) :
    Extends tree m after chain left verdict := by
  obtain ⟨front, -, -, frontEq, -⟩ := testChain_cases tested
  have extending := sound.recorded.detectFork_of_extends (onTop front frontEq) chain
  obtain ⟨leftEq, processed, last, processedEq, rfl, verdictEq⟩ :=
    testChain_of_not_fork tested frontEq grafted.nodup extending
  cases last with
  | none => exact absurd verdictEq passed
  | some td =>
      have processing := Processing.setWorkingChain sound grafted.below
      have exactly : ∀ l ∈ chain, Exact tree processed l :=
        exact_processChain (List.nil_append chain ▸ grafted) processing (List.nil_append chain).symm
          (fun f member => absurd member List.not_mem_nil) processedEq
      have processes := processes_processChain processedEq grafted.nodup
      obtain ⟨back, backEq⟩ := exists_getLast?_of_head? frontEq
      obtain ⟨path, descends, tdEq⟩ := exactly back (List.mem_of_getLast? backEq)
      have lastEq : some td = some (tree.total path) :=
        (processes.td_last rfl backEq).symm.trans tdEq
      have blockEq : (processed.links back).block = (m.links back).block :=
        processes.touches.block_eq back
      refine ⟨leftEq, processes.workingTree_eq, processes.parent_eq, exactly, back, path, backEq,
        blockEq ▸ descends, ?_⟩
      rw [verdictEq, Option.some.inj lastEq]
      rfl

/-- The blocks of the walk `path` from the last link of `chain` have become canonical. -/
structure Adopts (tree : BlockTree) (m inserted : ChainManager σ) (chain path : List LinkRef) :
    Prop where
  sound : Sound tree inserted
  current : Current tree inserted
  head_eq : ∀ back, chain.getLast? = some back → inserted.currentBlock = (m.links back).block
  stored_kept {hash : Bytes} : (AList.lookup hash m.blocks).isSome →
    (AList.lookup hash inserted.blocks).isSome
  stored_cases {hash : Bytes} : (AList.lookup hash inserted.blocks).isSome →
    (AList.lookup hash m.blocks).isSome ∨ hash ∈ (m.blocksOf path).map ChainBlock.hash
  adopted : ∀ l ∈ path, (AList.lookup (m.links l).block.hash inserted.blocks).isSome
  workingTree_eq : inserted.workingTree = (m.forget path).workingTree
  nextLink_le : m.nextLink ≤ inserted.nextLink
  links_eq {l : LinkRef} : l < m.nextLink → inserted.links l = m.links l

variable {chain bchain path : List LinkRef} {back : LinkRef} {oldHead ancestor : ChainBlock}
  {ancestorHash : Bytes} {reverted allocated : ChainManager σ}

theorem last_lt (backEq : chain.getLast? = some back) (below : back < m.nextLink) :
    ∀ last, chain.getLast? = some last → last < m.nextLink := by
  intro last lastEq
  exact Option.some.inj (backEq.symm.trans lastEq) ▸ below

namespace Reverts

theorem lineage_of_last
    (reverts : Reverts m chain reverted bchain oldHead ancestorHash path ancestor allocated)
    (backEq : chain.getLast? = some back) : m.lineage m.nextLink back = some path := by
  obtain ⟨last, lastEq, pathEq⟩ := reverts.lineage_eq
  obtain rfl : last = back := Option.some.inj (lastEq.symm.trans backEq)
  exact pathEq

theorem blocksOf_eq
    (reverts : Reverts m chain reverted bchain oldHead ancestorHash path ancestor allocated) :
    reverted.blocksOf bchain = m.blocksOf path := by
  rw [reverts.reverted_eq]
  exact reverts.allocates.blocks_eq

end Reverts

namespace Sound

/-- The links of a walk are no longer in the tree, so they can be tested again. -/
theorem grafted_of_reverts (sound : Sound tree m)
    (below : ∀ back, chain.getLast? = some back → back < m.nextLink)
    (reverts : Reverts m chain reverted bchain oldHead ancestorHash path ancestor allocated) :
    Sound tree reverted ∧ Fresh reverted bchain ∧ Grafted reverted bchain := by
  obtain ⟨back, backEq, pathEq⟩ := reverts.lineage_eq
  have leads := sound.fits.leads (below back backEq) pathEq
  have forgotten := sound.forget path
  have contained : ∀ b ∈ path.map fun l => (m.links l).block, tree.Contains b := by
    intro b member
    obtain ⟨l, lMember, rfl⟩ := List.mem_map.mp member
    exact sound.link (leads.below l lMember)
  have allocates := reverts.allocates
  have allocatedSound := forgotten.allocates contained allocates
  have ancestorFound : AList.lookup ancestorHash allocated.blocks = some ancestor := by
    rw [allocates.blocks_kept]
    exact reverts.ancestor_eq
  obtain ⟨front, frontEq, prevEq, -⟩ := reverts.front
  have fresh := (allocates.isFresh forgotten.recorded).setHead ancestor ancestorHash
  rw [reverts.reverted_eq] at prevEq ⊢
  refine ⟨allocatedSound.setHead ancestorFound, fresh, fresh.nodup, fresh.below, ?_, ?_, ?_⟩
  · have blocksEq : (allocated.setHead ancestor ancestorHash).blocksOf bchain = m.blocksOf path :=
      allocates.blocks_eq
    rw [blocksEq]
    exact leads.linked
  · intro l member
    have inPath : (allocated.links l).block ∈ path.map fun l => (m.links l).block := by
      rw [← allocates.blocks_eq]
      exact List.mem_map_of_mem member
    obtain ⟨old, oldMember, blockEq⟩ := List.mem_map.mp inPath
    change AList.lookup (allocated.links l).block.hash allocated.workingTree = none
    rw [allocates.workingTree_eq, lookup_forget, if_pos ⟨old, oldMember, congrArg _ blockEq⟩]
  · intro l lEq
    obtain rfl : front = l := Option.some.inj (frontEq.symm.trans lEq)
    rw [prevEq]
    exact Option.isSome_of_eq_some ancestorFound

/-- The old canonical blocks are tested and added to the tree. -/
theorem demote (sound : Sound tree m) (judges : Judges process tree)
    (known : oldHead = tree.genesis ∨ tree.Contains oldHead)
    (demoted : m.demote process oldHead ancestorHash = some after) :
    Sound tree after ∧ after.canonical = m.canonical := by
  obtain ⟨blocks, allocated, chain, left, verdict, walked, allocates, tested⟩ :=
    demote_cases demoted
  have contained := sound.contains_blocksAbove known walked
  have linked := (between_blocksAbove sound.recorded walked).linked
  have touches := (touches_testChain tested allocates.nodup).1
  refine ⟨?_, touches.canonical_eq.trans allocates.canonical_eq⟩
  refine (sound.allocates contained allocates).testChain judges
    (allocates.isFresh sound.recorded) ?_ tested
  rw [blocksOf, allocates.blocks_eq]
  exact linked

theorem oldHead_of_reverts (sound : Sound tree m)
    (reverts : Reverts m chain reverted bchain oldHead ancestorHash path ancestor allocated) :
    oldHead = m.currentBlock := by
  have found := sound.recorded.current
  rw [← sound.recorded.head] at found
  exact Option.some.inj (reverts.oldHead_eq.symm.trans found)

theorem onTop_of_reverts (sound : Sound tree m)
    (reverts : Reverts m chain reverted bchain oldHead ancestorHash path ancestor allocated) :
    ∀ front ∈ bchain.head?, (reverted.links front).block.prevHash = reverted.currentBlock.hash := by
  intro front frontEq
  obtain ⟨first, firstEq, prevEq, -⟩ := reverts.front
  obtain rfl : first = front := Option.some.inj (firstEq.symm.trans frontEq)
  rw [prevEq, reverts.reverted_eq]
  exact (sound.recorded.named reverts.ancestor_eq).symm

/-- A new chain that is accepted becomes canonical. -/
theorem exists_inserted (sound : Sound tree m) (judges : Judges process tree) {left : List LinkRef}
    {tested : ChainManager σ} (below : ∀ back, chain.getLast? = some back → back < m.nextLink)
    (reverts : Reverts m chain reverted bchain oldHead ancestorHash path ancestor allocated)
    (testedEq : reverted.testChain process bchain = some (tested, left, .accepted)) :
    ∃ front back branchParent inserted, OnHead tested left front back branchParent ∧
      tested.lengthen left = some inserted ∧ Adopts tree m inserted chain path := by
  obtain ⟨revertedSound, fresh, grafted⟩ := sound.grafted_of_reverts below reverts
  have testedSound := revertedSound.testChain judges fresh grafted.linked testedEq
  have touches := (touches_testChain testedEq fresh.nodup).1
  have onTop := sound.onTop_of_reverts reverts
  have extended := revertedSound.extends_testChain grafted onTop testedEq (by decide)
  obtain rfl := extended.left_eq
  obtain ⟨front, frontEq, -⟩ := reverts.front
  have processed : ∀ l ∈ left, (tested.links l).td.isSome := by
    intro l member
    obtain ⟨path, -, tdEq⟩ := extended.exactly l member
    exact Option.isSome_of_eq_some tdEq
  obtain ⟨inserted, lengthened⟩ := exists_lengthen processed
  obtain ⟨last, -, lastEq, -⟩ := extended.outcome
  have parentStored := grafted.first front frontEq
  obtain ⟨branchParent, parentEq⟩ := Option.isSome_iff_exists.mp parentStored
  have found : tested.getBlock (tested.links front).block.prevHash = some branchParent := by
    rw [getBlock, getBlockCanonical, touches.block_eq, touches.blocks_eq, parentEq]
  have same : tested.currentBlock.hash = branchParent.hash := by
    rw [touches.currentBlock_eq, revertedSound.recorded.named parentEq, onTop front frontEq]
  refine ⟨front, last, branchParent, inserted, ⟨frontEq, lastEq, found, same⟩, lengthened, ?_⟩
  have insertedSound : Sound tree inserted ∧ Current tree inserted := by
    refine testedSound.lengthen ?_ ?_ ?_ extended.exactly ?_ lengthened
    · intro l member
      rw [touches.nextLink_eq]
      exact fresh.below l member
    · have blocksEq : tested.blocksOf left = reverted.blocksOf left :=
        List.map_congr_left fun l _ => touches.block_eq l
      rw [blocksEq]
      exact grafted.linked
    · intro l lEq
      rw [touches.block_eq, touches.blocks_eq]
      exact grafted.first l lEq
    · rintro rfl
      exact absurd frontEq (by simp)
  obtain ⟨linksEq, nextLinkEq, treeEq, -⟩ := lengthen_frame lengthened
  have blocksEq : tested.blocks = m.blocks := by
    rw [touches.blocks_eq, reverts.reverted_eq]
    exact reverts.allocates.blocks_kept
  have linkBlocks : tested.blocksOf left = m.blocksOf path := by
    exact (List.map_congr_left fun l _ => touches.block_eq l).trans reverts.blocksOf_eq
  constructor
  case sound => exact insertedSound.1
  case current => exact insertedSound.2
  case head_eq =>
    intro back backEq
    have leads := sound.fits.leads (below back backEq) (reverts.lineage_of_last backEq)
    have lastBlock := congrArg List.getLast? linkBlocks
    rw [blocksOf, blocksOf, List.getLast?_map, List.getLast?_map, lastEq, leads.last] at lastBlock
    rw [currentBlock_lengthen lengthened lastEq]
    exact Option.some.inj lastBlock
  case stored_kept =>
    intro hash stored
    apply lookup_lengthen_isSome lengthened
    rw [blocksEq]
    exact stored
  case stored_cases =>
    intro hash stored
    rcases stored_lengthen lengthened stored with before | ⟨l, member, rfl⟩
    · exact .inl (blocksEq ▸ before)
    · rw [← linkBlocks]
      exact .inr (List.mem_map_of_mem (List.mem_map_of_mem member))
  case adopted =>
    intro l member
    have inLeft : (m.links l).block ∈ tested.blocksOf left := by
      rw [linkBlocks]
      exact List.mem_map_of_mem member
    obtain ⟨other, otherMember, blockEq⟩ := List.mem_map.mp inLeft
    exact blockEq ▸ lengthen_stores lengthened other otherMember
  case nextLink_le =>
    rw [nextLinkEq, touches.nextLink_eq, reverts.reverted_eq]
    exact reverts.allocates.nextLink_le
  case workingTree_eq =>
    refine treeEq.trans (extended.workingTree_eq.trans ?_)
    rw [reverts.reverted_eq]
    exact reverts.allocates.workingTree_eq
  case links_eq =>
    intro l old
    rw [linksEq, touches.links_eq (reverts.allocates.not_mem_of_lt old), reverts.reverted_eq]
    exact reverts.allocates.kept old

theorem reOrg (sound : Sound tree m) (current : Current tree m) (judges : Judges process tree)
    (below : ∀ back, chain.getLast? = some back → back < m.nextLink)
    (reorganised : m.reOrg process chain = some after) : Sound tree after ∧ Current tree after := by
  obtain ⟨reverted, bchain, oldHead, ancestorHash, tested, left, verdict, revertEq, testedEq,
    outcome⟩ := reOrg_cases reorganised
  obtain ⟨path, ancestor, allocated, reverts⟩ := reverts_of_revert revertEq
  have oldHeadEq := sound.oldHead_of_reverts reverts
  rcases outcome with ⟨rfl, inserted, insertedEq, demoted⟩ | ⟨-, rfl⟩
  · obtain ⟨_, _, _, inserted', onHead, lengthened, adopts⟩ :=
      sound.exists_inserted judges below reverts testedEq
    obtain rfl : inserted' = inserted :=
      Option.some.inj (lengthened.symm.trans ((onHead.insertChainWith _).symm.trans insertedEq))
    obtain ⟨demotedSound, canonicalEq⟩ :=
      adopts.sound.demote judges (sound.stored reverts.oldHead_eq) demoted
    exact ⟨demotedSound, adopts.current.of_canonical_eq canonicalEq⟩
  · obtain ⟨revertedSound, fresh, grafted⟩ := sound.grafted_of_reverts below reverts
    have testedSound := revertedSound.testChain judges fresh grafted.linked testedEq
    have touches := (touches_testChain testedEq fresh.nodup).1
    have blocksEq : tested.blocks = m.blocks := by
      rw [touches.blocks_eq, reverts.reverted_eq]
      exact reverts.allocates.blocks_kept
    have tdEq : tested.td = m.td := by
      rw [touches.td_eq, reverts.reverted_eq]
      exact reverts.allocates.td_kept
    refine ⟨testedSound.setHead (blocksEq ▸ reverts.oldHead_eq), ?_⟩
    obtain ⟨path, descends, totalEq⟩ := current
    exact ⟨path, oldHeadEq ▸ descends, tdEq.trans totalEq⟩

end Sound

/-! ### Whole rounds -/

/-- A hash-linked chain of blocks that the working tree does not have. -/
structure Proper (tree : BlockTree) (m : ChainManager σ) (blocks : List ChainBlock) : Prop where
  linked : HashLinked blocks
  contained : ∀ b ∈ blocks, tree.Contains b
  absent : ∀ b ∈ blocks, AList.lookup b.hash m.workingTree = none

/-- The links of a proper chain. -/
structure NewLinks (tree : BlockTree) (m : ChainManager σ) (blocks : List ChainBlock)
    (allocated : ChainManager σ) (chain : List LinkRef) : Prop where
  sound : Sound tree allocated
  fresh : Fresh allocated chain
  linked : HashLinked (allocated.blocksOf chain)
  absent : ∀ l ∈ chain, AList.lookup (allocated.links l).block.hash allocated.workingTree = none

theorem Sound.newLinks (sound : Sound tree m) (proper : Proper tree m blocks)
    (allocates : Allocates m blocks allocated chain) : NewLinks tree m blocks allocated chain where
  sound := sound.allocates proper.contained allocates
  fresh := allocates.isFresh sound.recorded
  linked := by
    rw [blocksOf, allocates.blocks_eq]
    exact proper.linked
  absent l member := by
    rw [allocates.workingTree_eq]
    apply proper.absent
    rw [← allocates.blocks_eq]
    exact List.mem_map_of_mem member

/-- The blocks of a chain that has been processed have different hashes. -/
theorem NewLinks.nodup_hashes {processed : ChainManager σ} {td : Nat}
    (new : NewLinks tree m blocks allocated chain) (judges : Judges process tree)
    (processedEq : (allocated.setWorkingChain chain).processChain process 0 chain =
      some (processed, some td)) : ((allocated.blocksOf chain).map ChainBlock.hash).Nodup := by
  cases chain with
  | nil => exact .nil
  | cons front rest =>
      have processes := processes_processChain processedEq new.fresh.nodup
      have below := new.fresh.below front List.mem_cons_self
      have grounded : Grounded tree processed :=
        grounded_processChain judges (.setWorkingChain new.sound new.fresh.below)
          new.sound.processed new.fresh.below processedEq
      obtain ⟨-, path, descends⟩ := grounded (processes.touches.nextLink_eq ▸ below)
        (processes.td_isSome rfl List.mem_cons_self)
      rw [processes.touches.block_eq] at descends
      obtain ⟨before, -, leads⟩ := (new.sound.link below).descends_parent descends
      apply BlockTree.nodup_hashes leads new.linked
      · intro b member
        obtain ⟨l, lMember, rfl⟩ := List.mem_map.mp member
        exact new.sound.link (new.fresh.below l lMember)
      · intro b bEq
        obtain rfl : (allocated.links front).block = b := Option.some.inj bEq
        rfl

/-- The chain is whole after its test. -/
theorem NewLinks.left_eq {tested : ChainManager σ} {left : List LinkRef} {verdict : Verdict}
    (new : NewLinks tree m blocks allocated chain) (judges : Judges process tree)
    (testedEq : allocated.testChain process chain = some (tested, left, verdict)) :
    left = chain := by
  obtain ⟨front, processed, last, -, processedEq, ⟨-, -, leftEq, -⟩ |
    ⟨td, joined, rfl, -, -, joinedEq⟩⟩ := testChain_cases testedEq
  · exact leftEq
  · have processes := processes_processChain processedEq new.fresh.nodup
    unfold recordFork at joinedEq
    split at joinedEq
    · refine (left_joinTree ?_ ?_ joinedEq).trans (List.nil_append chain)
      · intro l member
        rw [processes.workingTree_eq, processes.touches.block_eq]
        exact new.absent l member
      · have blocksEq : processed.blocksOf chain = allocated.blocksOf chain :=
          List.map_congr_left fun l _ => processes.touches.block_eq l
        rw [blocksEq]
        exact new.nodup_hashes judges processedEq
    · cases joinedEq
      rfl

theorem NewLinks.grafted (new : NewLinks tree m blocks allocated chain)
    (onTop : ∀ l ∈ chain.head?, (allocated.links l).block.prevHash = allocated.currentBlock.hash) :
    Grafted allocated chain := by
  refine ⟨new.fresh.nodup, new.fresh.below, new.linked, new.absent, fun l lEq => ?_⟩
  rw [onTop l lEq, new.sound.recorded.current]
  rfl

theorem Sound.present (sound : Sound tree m) (current : Current tree m)
    (judges : Judges process tree) (proper : Proper tree m blocks)
    (presented : m.present process blocks = some after) :
    Sound tree after ∧ Current tree after := by
  obtain ⟨⟨tested, left, verdict⟩, testedEq, presented⟩ := Option.bind_eq_some_iff.mp presented
  have allocates := allocates_newChain m blocks
  have new := sound.newLinks proper allocates
  have touches := (touches_testChain testedEq allocates.nodup).1
  have testedSound := new.sound.testChain judges new.fresh new.linked testedEq
  have testedCurrent : Current tree tested :=
    current.of_canonical_eq (touches.canonical_eq.trans allocates.canonical_eq)
  have below : ∀ l ∈ (m.newChain blocks).2, l < tested.nextLink := by
    intro l member
    rw [touches.nextLink_eq]
    exact new.fresh.below l member
  dsimp only at presented
  split at presented
  · exact Option.some.inj presented ▸ ⟨testedSound, testedCurrent⟩
  · rename_i passed
    obtain rfl := new.left_eq judges testedEq
    obtain ⟨front, back, branchParent, frontEq, backEq, parentEq, outcome⟩ :=
      insertChainWith_cases presented
    rcases outcome with ⟨same, lengthened⟩ | ⟨-, td, -, ⟨-, reorganised⟩ | ⟨-, rfl⟩⟩
    · have onTop : ((m.newChain blocks).1.links front).block.prevHash =
          (m.newChain blocks).1.currentBlock.hash := by
        rw [← touches.block_eq, ← testedSound.recorded.hash_of_getBlock parentEq, ← same,
          touches.currentBlock_eq]
      have onTops : ∀ first ∈ (m.newChain blocks).2.head?,
          ((m.newChain blocks).1.links first).block.prevHash =
            (m.newChain blocks).1.currentBlock.hash := by
        intro first firstEq
        obtain rfl : front = first := Option.some.inj (frontEq.symm.trans firstEq)
        exact onTop
      have grafted := new.grafted onTops
      have extended := new.sound.extends_testChain grafted onTops testedEq passed
      refine testedSound.lengthen below ?_ ?_ extended.exactly ?_ lengthened
      · have blocksEq : tested.blocksOf (m.newChain blocks).2 =
            (m.newChain blocks).1.blocksOf (m.newChain blocks).2 :=
          List.map_congr_left fun l _ => touches.block_eq l
        rw [blocksEq]
        exact new.linked
      · intro first firstEq
        rw [touches.block_eq, touches.blocks_eq]
        exact grafted.first first firstEq
      · intro empty
        rw [empty] at frontEq
        exact absurd frontEq (by simp)
    · exact testedSound.reOrg testedCurrent judges
        (fun last lastEq => below last (List.mem_of_getLast? lastEq)) reorganised
    · exact ⟨testedSound, testedCurrent⟩

/-! ### Runs that present each block once -/

theorem Sound.mono {presented more : ChainBlock → Prop}
    (sound : Sound (tree.withPresented presented) m) (subset : ∀ b, presented b → more b) :
    Sound (tree.withPresented more) m := by
  have widen : ∀ {b}, (tree.withPresented presented).Contains b →
      (tree.withPresented more).Contains b := fun contained =>
    contained.withPresented (subset _ contained.presented)
  constructor
  case recorded => exact sound.recorded
  case fits => exact sound.fits
  case origin => exact sound.origin
  case before => exact sound.before
  case stored => exact fun found => (sound.stored found).imp_right widen
  case approved => exact sound.approved
  case descends => exact sound.descends
  case informed => exact sound.informed
  case exactly => exact sound.exactly
  case link => exact fun below => widen (sound.link below)
  case processed => exact sound.processed

/-- `seen` are the blocks of the rounds before. -/
theorem Sound.rounds {seen : List ChainBlock} {chains : List (List ChainBlock)}
    (sound : Sound (tree.withPresented (· ∈ seen)) m) (current : Current tree m)
    (judges : Judges process tree) (linked : ∀ chain ∈ chains, HashLinked chain)
    (contained : ∀ b ∈ chains.flatten, tree.Contains b)
    (distinct : ((seen ++ chains.flatten).map ChainBlock.hash).Nodup)
    (run : m.rounds process chains = some after) :
    Sound (tree.withPresented (· ∈ seen ++ chains.flatten)) after ∧ Current tree after := by
  induction chains generalizing m seen with
  | nil =>
      cases run
      simpa using And.intro sound current
  | cons chain later induction =>
      obtain ⟨middle, presented, run⟩ := Option.bind_eq_some_iff.mp run
      have appendEq : seen ++ (chain :: later).flatten = seen ++ chain ++ later.flatten := by simp
      rw [appendEq] at distinct ⊢
      have proper : Proper (tree.withPresented (· ∈ seen ++ chain)) m chain := by
        refine ⟨linked chain List.mem_cons_self, fun b member => ?_, fun b member => ?_⟩
        · exact (contained b (by simp [member])).withPresented (List.mem_append_right _ member)
        · by_contra known
          obtain ⟨l, found⟩ := Option.ne_none_iff_exists'.mp known
          obtain ⟨below, hashEq⟩ := sound.recorded.tree found
          have old : (m.links l).block ∈ seen := (sound.link below).presented
          have apart := (List.nodup_append.mp ((List.map_append ▸ distinct))).1
          rw [List.map_append] at apart
          exact (List.nodup_append.mp apart).2.2 _ (List.mem_map_of_mem old) _
            (List.mem_map_of_mem member) hashEq
      have wider : Sound (tree.withPresented (· ∈ seen ++ chain)) m :=
        sound.mono fun b member => List.mem_append_left _ member
      obtain ⟨middleSound, middleCurrent⟩ := wider.present current judges proper presented
      exact induction middleSound middleCurrent
        (fun other member => linked other (List.mem_cons_of_mem _ member))
        (fun b member => contained b (List.mem_append_right _ member)) distinct run

end ChainManager

end Thelonious
