import Thelonious.Chain.HeaviestChain

/-!
# The shape of the working tree

In a neat working tree the parent of a link is the link of its parent block, and a
link without a parent branches off the canonical chain.  Forks and extensions keep
it neat.  A reorganisation does so as long as no other link hangs on the blocks
that it moves.
-/

namespace Thelonious

theorem head_or_pred {α : Type*} {list : List α} {x : α} (member : x ∈ list) :
    list.head? = some x ∨ ∃ y before rest, list = before ++ y :: x :: rest := by
  obtain ⟨before, rest, rfl⟩ := List.append_of_mem member
  rcases List.eq_nil_or_concat before with rfl | ⟨init, y, rfl⟩
  · exact .inl rfl
  · exact .inr ⟨y, init, rest, by simp⟩

namespace ChainManager

variable {σ : Type} {m after : ChainManager σ} {tree : BlockTree}
variable {process : ChainManager σ → ChainBlock → ChainBlock → Bool × σ}

/-- The block with the hash is on the canonical chain. -/
def OnChain (m : ChainManager σ) (hash : Bytes) : Prop :=
  (AList.lookup hash m.blocks).isSome ∧ (hash = m.currentBlock.hash ∨ m.Behind hash)

/-- The block with the hash is in the working tree or on the canonical chain. -/
def Kept (m : ChainManager σ) (hash : Bytes) : Prop :=
  (AList.lookup hash m.workingTree).isSome ∨ m.OnChain hash

variable {lower : List Bytes} {hash ancestorHash : Bytes} {oldHead : ChainBlock}

theorem Sound.onChain_iff (sound : Sound tree m) {canon : List Bytes}
    (descends : tree.Descends m.currentBlock.hash canon) :
    m.OnChain hash ↔ hash ∈ tree.genesis.hash :: canon := by
  have currentStored := Option.isSome_of_eq_some sound.recorded.current
  constructor
  · rintro ⟨stored, rfl | behind⟩
    · exact descends.self_mem
    · exact ((sound.behind_iff descends stored).mp behind).1
  · intro member
    have stored : (AList.lookup hash m.blocks).isSome := by
      rcases List.mem_cons.mp member with rfl | member
      · exact Option.isSome_of_eq_some sound.origin
      · obtain ⟨path, leads, inside⟩ := sound.descends currentStored
        exact inside hash (leads.unique descends ▸ member)
    refine ⟨stored, ?_⟩
    by_cases same : hash = m.currentBlock.hash
    · exact .inl same
    · exact .inr ((sound.behind_iff descends stored).mpr ⟨member, same⟩)

/-- The canonical chain goes through the ancestry of each of its blocks. -/
theorem Sound.descends_onChain (sound : Sound tree m) (onChain : m.OnChain hash)
    (lowerDescends : tree.Descends hash lower) :
    ∃ demoted, tree.Descends m.currentBlock.hash (lower ++ demoted) := by
  obtain ⟨canon, descends, -⟩ := sound.descends (Option.isSome_of_eq_some sound.recorded.current)
  rcases List.mem_cons.mp ((sound.onChain_iff descends).mp onChain) with rfl | member
  · obtain rfl := lowerDescends.unique .root
    exact ⟨canon, descends⟩
  · obtain ⟨before, later, rfl, leads⟩ := descends.of_mem member
    obtain rfl := lowerDescends.unique leads
    exact ⟨later, by simpa using descends⟩

theorem OnChain.congr (onChain : m.OnChain hash) (blocksEq : after.blocks = m.blocks)
    (currentEq : after.currentBlock = m.currentBlock) : after.OnChain hash := by
  obtain ⟨stored, reached⟩ := onChain
  refine ⟨by rw [blocksEq]; exact stored, ?_⟩
  rcases reached with same | behind
  · exact .inl (currentEq ▸ same)
  · exact .inr (behind.congr blocksEq currentEq)

/-- The links of the tree have their parents in the tree, or on the canonical chain, which
is apart from it. -/
structure Neat (m : ChainManager σ) : Prop where
  parent_eq {hash : Bytes} {l : LinkRef} : AList.lookup hash m.workingTree = some l →
    (m.links l).parent = AList.lookup (m.links l).block.prevHash m.workingTree
  closed {hash : Bytes} {l : LinkRef} : AList.lookup hash m.workingTree = some l →
    m.Kept (m.links l).block.prevHash
  apart {hash : Bytes} : m.OnChain hash → AList.lookup hash m.workingTree = none

/-- No block of the database is lost from sight. -/
def Covered (m : ChainManager σ) : Prop :=
  ∀ {hash : Bytes}, (AList.lookup hash m.blocks).isSome → m.Kept hash

namespace Neat

theorem boot (genesis : ChainBlock) (processor : σ) : Neat (boot genesis processor) := by
  have empty (hash : Bytes) :
      AList.lookup hash (ChainManager.boot genesis processor).workingTree = none :=
    AList.lookup_empty hash
  constructor
  · intro hash l found
    exact absurd ((empty hash).symm.trans found) (by simp)
  · intro hash l found
    exact absurd ((empty hash).symm.trans found) (by simp)
  · intro hash _
    exact empty hash

theorem parent_none_iff (neat : Neat m) {hash : Bytes} {l : LinkRef}
    (found : AList.lookup hash m.workingTree = some l) :
    (m.links l).parent = none ↔ m.OnChain (m.links l).block.prevHash := by
  rw [neat.parent_eq found]
  constructor
  · intro absent
    rcases neat.closed found with inTree | onChain
    · rw [absent] at inTree
      exact absurd inTree (by simp)
    · exact onChain
  · exact neat.apart

/-- A step that leaves the tree alone and may only extend the canonical chain. -/
theorem of_tree_eq (neat : Neat m) (treeEq : after.workingTree = m.workingTree)
    (linksEq : ∀ {hash l}, AList.lookup hash m.workingTree = some l → after.links l = m.links l)
    (onChain : ∀ {hash}, m.OnChain hash → after.OnChain hash)
    (apart : ∀ {hash}, after.OnChain hash → AList.lookup hash m.workingTree = none) :
    Neat after ∧ ∀ {hash}, m.Kept hash → after.Kept hash := by
  have kept : ∀ {hash}, m.Kept hash → after.Kept hash := by
    intro hash held
    rcases held with inTree | held
    · exact .inl (by rw [treeEq]; exact inTree)
    · exact .inr (onChain held)
  refine ⟨⟨?_, ?_, ?_⟩, kept⟩
  · intro hash l found
    rw [treeEq] at found
    rw [linksEq found, treeEq]
    exact neat.parent_eq found
  · intro hash l found
    rw [treeEq] at found
    rw [linksEq found]
    exact kept (neat.closed found)
  · intro hash held
    rw [treeEq]
    exact apart held

theorem congr (neat : Neat m) (treeEq : after.workingTree = m.workingTree)
    (linksEq : ∀ {hash l}, AList.lookup hash m.workingTree = some l → after.links l = m.links l)
    (blocksEq : after.blocks = m.blocks) (currentEq : after.currentBlock = m.currentBlock) :
    Neat after ∧ ∀ {hash}, m.Kept hash → after.Kept hash :=
  neat.of_tree_eq treeEq linksEq (fun held => held.congr blocksEq currentEq)
    fun held => neat.apart (held.congr blocksEq.symm currentEq.symm)

/-- A fork of blocks that are not kept yet joins the tree. -/
theorem forked (neat : Neat m) (recorded : Recorded m) {blocks : List ChainBlock}
    {first : ChainBlock} {allocated : ChainManager σ} {chain : List LinkRef} {td : Nat}
    (allocates : Allocates m blocks allocated chain)
    (forked : Forked allocated after chain (AList.lookup first.prevHash m.workingTree) td)
    (blocksEq : after.blocks = m.blocks) (currentEq : after.currentBlock = m.currentBlock)
    (linked : HashLinked blocks) (firstEq : blocks.head? = some first)
    (known : m.Kept first.prevHash) (new : ∀ b ∈ blocks, ¬ m.Kept b.hash) :
    Neat after ∧ (∀ {hash}, m.Kept hash → after.Kept hash) ∧ ∀ b ∈ blocks, after.Kept b.hash := by
  have hashesEq : (allocated.blocksOf chain).map ChainBlock.hash = blocks.map ChainBlock.hash :=
    congrArg _ allocates.blocks_eq
  have outside {hash : Bytes} (held : m.Kept hash) :
      hash ∉ (allocated.blocksOf chain).map ChainBlock.hash := by
    rw [hashesEq]
    intro member
    obtain ⟨b, bMember, rfl⟩ := List.mem_map.mp member
    exact new b bMember held
  have lookupOld {hash : Bytes} (held : m.Kept hash) :
      AList.lookup hash after.workingTree = AList.lookup hash m.workingTree := by
    rw [forked.kept (outside held), allocates.workingTree_eq]
  have kept {hash : Bytes} (held : m.Kept hash) : after.Kept hash := by
    rcases held with inTree | onChain
    · left
      rw [lookupOld (.inl inTree)]
      exact inTree
    · exact .inr (onChain.congr blocksEq currentEq)
  have ownParent {l : LinkRef} (member : l ∈ chain) :
      (after.links l).parent = AList.lookup (after.links l).block.prevHash after.workingTree ∧
        after.Kept (after.links l).block.prevHash := by
    have follows : chain.IsChain fun up down => Follows (allocated.links up).block
        (allocated.links down).block := by
      rw [← List.isChain_map, allocates.blocks_eq]
      exact linked
    rw [forked.block_eq]
    rcases head_or_pred member with isFirst | ⟨up, before, rest, chainEq⟩
    · obtain ⟨front, frontEq, blockEq⟩ := allocates.head firstEq
      obtain rfl : front = l := Option.some.inj (frontEq.symm.trans isFirst)
      rw [forked.first front isFirst, blockEq, lookupOld known]
      exact ⟨rfl, kept known⟩
    · have isParent := List.isChain_iff_forall_rel_of_append_cons_cons.mp forked.chained chainEq
      have prevEq := List.isChain_iff_forall_rel_of_append_cons_cons.mp follows chainEq
      have upFound := forked.found up (by simp [chainEq])
      rw [isParent, prevEq, upFound]
      exact ⟨rfl, .inl (Option.isSome_of_eq_some upFound)⟩
  refine ⟨⟨?_, ?_, ?_⟩, kept, ?_⟩
  · intro hash l found
    rcases forked.tree_cases allocates recorded found with member | ⟨old, linkEq⟩
    · exact (ownParent member).1
    · rw [linkEq, lookupOld (neat.closed old)]
      exact neat.parent_eq old
  · intro hash l found
    rcases forked.tree_cases allocates recorded found with member | ⟨old, linkEq⟩
    · exact (ownParent member).2
    · rw [linkEq]
      exact kept (neat.closed old)
  · intro hash held
    have heldBefore := held.congr blocksEq.symm currentEq.symm
    rw [lookupOld (.inr heldBefore)]
    exact neat.apart heldBefore
  · intro b member
    rw [← allocates.blocks_eq] at member
    obtain ⟨l, lMember, rfl⟩ := List.mem_map.mp member
    exact .inl (Option.isSome_of_eq_some (forked.found l lMember))

/-- The links of a walk are those of the tree. -/
theorem path_in_tree (neat : Neat m) (recorded : Recorded m) {back : LinkRef}
    {path : List LinkRef} (isPath : ParentForest.IsPath (fun l => (m.links l).parent) back path)
    (found : AList.lookup (m.links back).block.hash m.workingTree = some back) :
    ∀ l ∈ path, AList.lookup (m.links l).block.hash m.workingTree = some l := by
  induction path using List.reverseRecOn generalizing back with
  | nil => exact fun _ member => absurd member List.not_mem_nil
  | append_singleton before last induction =>
      rcases isPath.cases_parent with ⟨pathEq, -⟩ | ⟨up, init, pathEq, isParent, upPath⟩
      · intro l member
        rw [pathEq] at member
        exact List.mem_singleton.mp member ▸ found
      · obtain ⟨rfl, lastEq⟩ := List.append_inj' pathEq rfl
        have upFound : AList.lookup (m.links up).block.hash m.workingTree = some up := by
          have inTree := (neat.parent_eq found).symm.trans isParent
          rw [(recorded.tree inTree).2]
          exact inTree
        intro l member
        rcases List.mem_append.mp member with member | member
        · exact induction upPath upFound l member
        · rw [lastEq] at member
          exact List.mem_singleton.mp member ▸ found

/-- The links of a walk move from the tree to the canonical chain, and the blocks
`demoted` leave the canonical chain. -/
theorem adopt (neat : Neat m) (sound : Sound tree m) (afterSound : Sound tree after)
    {path : List LinkRef} {lower demoted : List Bytes}
    (treeEq : after.workingTree = (m.forget path).workingTree)
    (linksEq : ∀ l < m.nextLink, after.links l = m.links l)
    (descends : tree.Descends m.currentBlock.hash (lower ++ demoted))
    (adopted : tree.Descends after.currentBlock.hash
      (lower ++ (m.blocksOf path).map ChainBlock.hash))
    (clean : ∀ {hash l}, AList.lookup hash m.workingTree = some l → l ∉ path →
      (m.links l).block.prevHash ∉ (m.blocksOf path).map ChainBlock.hash ∧
        (m.links l).block.prevHash ∉ demoted) :
    Neat after ∧ ∀ {hash}, m.Kept hash → after.Kept hash ∨ hash ∈ demoted := by
  have lookupEq (hash : Bytes) : AList.lookup hash after.workingTree =
      if hash ∈ (m.blocksOf path).map ChainBlock.hash then none
      else AList.lookup hash m.workingTree := by
    rw [treeEq, lookup_forget]
    congr 1
    simp [blocksOf]
  have keptOr {hash : Bytes} (held : m.Kept hash) : after.Kept hash ∨ hash ∈ demoted := by
    by_cases moved : hash ∈ (m.blocksOf path).map ChainBlock.hash
    · refine .inl (.inr ((afterSound.onChain_iff adopted).mpr ?_))
      exact List.mem_cons_of_mem _ (List.mem_append_right _ moved)
    · rcases held with inside | onChain
      · left
        left
        rw [lookupEq, if_neg moved]
        exact inside
      · rcases List.mem_cons.mp ((sound.onChain_iff descends).mp onChain) with isGenesis | member
        · exact .inl (.inr ((afterSound.onChain_iff adopted).mpr (isGenesis ▸ List.mem_cons_self)))
        · rcases List.mem_append.mp member with member | member
          · refine .inl (.inr ((afterSound.onChain_iff adopted).mpr ?_))
            exact List.mem_cons_of_mem _ (List.mem_append_left _ member)
          · exact .inr member
  have old {hash : Bytes} {l : LinkRef} (found : AList.lookup hash after.workingTree = some l) :
      AList.lookup hash m.workingTree = some l ∧ l ∉ path ∧ after.links l = m.links l := by
    rw [lookupEq] at found
    split at found
    · exact absurd found (by simp)
    · rename_i stays
      obtain ⟨below, hashEq⟩ := sound.recorded.tree found
      refine ⟨found, fun member => stays ?_, linksEq l below⟩
      rw [← hashEq]
      exact List.mem_map_of_mem (List.mem_map_of_mem member)
  refine ⟨⟨?_, ?_, ?_⟩, keptOr⟩
  · intro hash l found
    obtain ⟨foundBefore, away, linkEq⟩ := old found
    rw [linkEq, lookupEq, if_neg (clean foundBefore away).1]
    exact neat.parent_eq foundBefore
  · intro hash l found
    obtain ⟨foundBefore, away, linkEq⟩ := old found
    rw [linkEq]
    exact (keptOr (neat.closed foundBefore)).resolve_right (clean foundBefore away).2
  · intro hash held
    rw [lookupEq]
    split
    · rfl
    · rename_i stays
      apply neat.apart
      rw [sound.onChain_iff descends]
      rcases List.mem_cons.mp ((afterSound.onChain_iff adopted).mp held) with isGenesis | member
      · exact isGenesis ▸ List.mem_cons_self
      · rcases List.mem_append.mp member with member | member
        · exact List.mem_cons_of_mem _ (List.mem_append_left _ member)
        · exact absurd member stays

end Neat

/-! ### Reorganisations -/

/-- The old canonical blocks above the branch point, which join the tree. -/
theorem Sound.descends_demoted (sound : Sound tree m) {blocks : List ChainBlock} {fuel : Nat}
    (known : oldHead = tree.genesis ∨ tree.Contains oldHead)
    (walked : m.blocksAbove ancestorHash fuel oldHead = some blocks) (nonempty : blocks ≠ [])
    (descends : tree.Descends ancestorHash lower) :
    tree.Descends oldHead.hash (lower ++ blocks.map ChainBlock.hash) := by
  have between := between_blocksAbove sound.recorded walked
  have last := between.last
  split at last
  · exact absurd (List.getLast?_eq_none_iff.mp last) nonempty
  · exact BlockTree.descends_last descends between.linked
      (sound.contains_blocksAbove known walked) between.first last

/-- The blocks of a walk from a stored block are accepted ones. -/
theorem Sound.accepted_of_blocksAbove (sound : Sound tree m) {blocks : List ChainBlock} {fuel : Nat}
    (stored : AList.lookup oldHead.hash m.blocks = some oldHead)
    (walked : m.blocksAbove ancestorHash fuel oldHead = some blocks)
    (descends : tree.Descends ancestorHash lower) : ∀ b ∈ blocks, tree.accepted b := by
  intro b member
  have known := sound.stored stored
  have whole := sound.descends_demoted known walked (List.ne_nil_of_mem member) descends
  obtain ⟨path, leads, inside⟩ := sound.descends (Option.isSome_of_eq_some stored)
  obtain rfl := leads.unique whole
  have contained := sound.contains_blocksAbove known walked b member
  obtain ⟨other, found⟩ := Option.isSome_iff_exists.mp
    (inside b.hash (List.mem_append_right _ (List.mem_map_of_mem member)))
  rw [sound.eq_of_hash_eq (.inr contained) found] at found
  exact sound.approved found contained.ne_genesis

/-- The old canonical blocks join the tree. -/
theorem Neat.demote (neat : Neat m) (sound : Sound tree m)
    (fair : ∀ m block parent, (process m block parent).1 = true ↔ tree.accepted block)
    {demoted : List Bytes} (stored : AList.lookup oldHead.hash m.blocks = some oldHead)
    (lowerDescends : tree.Descends ancestorHash lower)
    (descends : tree.Descends oldHead.hash (lower ++ demoted)) (onChain : m.OnChain ancestorHash)
    (away : ancestorHash ≠ m.currentBlock.hash) (new : ∀ hash ∈ demoted, ¬ m.Kept hash)
    (demotedEq : m.demote process oldHead ancestorHash = some after) :
    Neat after ∧ (∀ {hash}, m.Kept hash → after.Kept hash) ∧ ∀ hash ∈ demoted, after.Kept hash := by
  have judges : Judges process tree := judges_of_fair fair
  obtain ⟨blocks, allocated, chain, left, verdict, walked, allocates, testedEq⟩ :=
    demote_cases demotedEq
  have known := sound.stored stored
  have between := between_blocksAbove sound.recorded walked
  have contained := sound.contains_blocksAbove known walked
  obtain ⟨front, -, -, frontEq, -⟩ := testChain_cases testedEq
  have firstEq : blocks.head? = some (allocated.links front).block := by
    refine (congrArg List.head? allocates.blocks_eq).symm.trans ?_
    rw [List.head?_map, frontEq]
    rfl
  have prevEq := between.first _ firstEq
  obtain rfl : demoted = blocks.map ChainBlock.hash := by
    refine List.append_cancel_left
      (descends.unique (sound.descends_demoted known walked ?_ lowerDescends))
    exact List.ne_nil_of_mem (List.mem_of_mem_head? firstEq)
  have notKept : ∀ b ∈ blocks, ¬ m.Kept b.hash := fun b member =>
    new b.hash (List.mem_map_of_mem member)
  have proper : Proper tree m blocks := by
    refine ⟨between.linked, contained, fun b member => ?_⟩
    by_contra inTree
    exact notKept b member (.inl (Option.isSome_iff_ne_none.mpr inTree))
  have links := sound.newLinks proper allocates
  have firstKnown : m.Known (allocated.links front).block.prevHash := by
    rw [prevEq]
    exact .inl onChain.1
  have passed : verdict ≠ .failed := by
    obtain ⟨_, _, verdict', testedEq', passed⟩ := sound.exists_passed proper allocates firstEq
      firstKnown fun b member other parent => (fair other b parent).mpr
        (sound.accepted_of_blocksAbove stored walked lowerDescends b member)
    obtain ⟨-, -, rfl⟩ : _ ∧ _ ∧ verdict' = verdict := by
      simpa using Option.some.inj (testedEq'.symm.trans testedEq)
    exact passed
  have forked :=
    links.forked allocates sound judges firstEq firstKnown (prevEq ▸ away) testedEq passed
  have canonicalEq := (touches_testChain testedEq allocates.nodup).1.canonical_eq.trans
    allocates.canonical_eq
  obtain ⟨neatAfter, kept, joined⟩ := neat.forked sound.recorded allocates forked
    (congrArg CanonicalPart.blocks canonicalEq) (congrArg CanonicalPart.currentBlock canonicalEq)
    between.linked firstEq (prevEq ▸ .inr onChain) notKept
  refine ⟨neatAfter, kept, fun hash member => ?_⟩
  obtain ⟨b, bMember, rfl⟩ := List.mem_map.mp member
  exact joined b bMember

/-- The links outside `path` hang neither on its blocks nor on a canonical block above the
branch point. -/
def Clear (m : ChainManager σ) (path : List LinkRef) (branch : Bytes) : Prop :=
  ∀ hash l, AList.lookup hash m.workingTree = some l → l ∉ path →
    (m.links l).block.prevHash ∉ (m.blocksOf path).map ChainBlock.hash ∧
      (m.OnChain (m.links l).block.prevHash →
        (m.links l).block.prevHash = branch ∨ m.Before branch (m.links l).block.prevHash)

/-- A reorganisation that does not go back to the old head keeps the tree neat. -/
theorem Neat.reOrg (neat : Neat m) (sound : Sound tree m)
    (fair : ∀ m block parent, (process m block parent).1 = true ↔ tree.accepted block)
    {chain path : List LinkRef} {back root : LinkRef} (backEq : chain.getLast? = some back)
    (found : AList.lookup (m.links back).block.hash m.workingTree = some back)
    (pathEq : m.lineage m.nextLink back = some path) (rootEq : path.head? = some root)
    (heavier : ∀ hashes, tree.Descends (m.links back).block.hash hashes → m.td < tree.total hashes)
    (clear : m.Clear path (m.links root).block.prevHash)
    (reorganised : m.reOrg process chain = some after) :
    Neat after ∧ (∀ {hash}, m.Kept hash → after.Kept hash) ∧
      ∀ {hash}, (AList.lookup hash after.blocks).isSome →
        (AList.lookup hash m.blocks).isSome ∨ m.Kept hash := by
  have judges : Judges process tree := judges_of_fair fair
  have below := (sound.recorded.tree found).1
  have leads := sound.fits.leads below pathEq
  have isPath := ParentForest.isPath_of_pathTo pathEq
  have inTree := neat.path_in_tree sound.recorded isPath found
  -- the walk starts on the canonical chain
  have onChain : m.OnChain (m.links root).block.prevHash := by
    obtain ⟨first, firstEq, isRoot⟩ := isPath.root
    obtain rfl : first = root := Option.some.inj (firstEq.symm.trans rootEq)
    exact (neat.parent_none_iff (inTree first (List.mem_of_mem_head? firstEq))).mp isRoot
  obtain ⟨lower, lowerDescends, -⟩ := sound.descends onChain.1
  have pathDescends : tree.Descends (m.links back).block.hash
      (lower ++ (m.blocksOf path).map ChainBlock.hash) := by
    refine BlockTree.descends_last lowerDescends leads.linked ?_ ?_ ?_
    · intro b member
      obtain ⟨l, lMember, rfl⟩ := List.mem_map.mp member
      exact sound.link (leads.below l lMember)
    · intro b bEq
      rw [blocksOf, List.head?_map, rootEq] at bEq
      exact Option.some.inj bEq ▸ rfl
    · rw [blocksOf, List.getLast?_map, leads.last]
      rfl
  obtain ⟨inserted, adopts, demotedEq⟩ := sound.adopts_of_reOrg fair backEq below
    (sound.fits.processed found) pathEq rootEq heavier reorganised
  have oldHeadKnown := sound.stored sound.recorded.current
  obtain ⟨demoted, descends⟩ := sound.descends_onChain onChain lowerDescends
  have demotedOnChain : ∀ hash ∈ demoted, m.OnChain hash := fun hash member =>
    (sound.onChain_iff descends).mpr (List.mem_cons_of_mem _ (List.mem_append_right _ member))
  have adopted := pathDescends
  rw [← adopts.head_eq back backEq] at adopted
  obtain ⟨neatInserted, keptOr⟩ := neat.adopt sound adopts.sound adopts.workingTree_eq
    (fun l below => adopts.links_eq below) descends adopted <| by
      intro hash l found away
      obtain ⟨offPath, atBranch⟩ := clear hash l found away
      refine ⟨offPath, fun member => ?_⟩
      have prevOnChain := demotedOnChain _ member
      refine descends.not_mem_later ?_ member
      rcases atBranch prevOnChain with atBranch | before
      · exact atBranch ▸ lowerDescends.self_mem
      · exact ((sound.before_iff lowerDescends onChain.1 prevOnChain.1).mp before).1
  have notKept : ∀ hash ∈ demoted, ¬ inserted.Kept hash := by
    intro hash member held
    have absent := neat.apart (demotedOnChain hash member)
    rcases held with inside | newOnChain
    · rw [adopts.workingTree_eq, lookup_forget, absent, ite_self] at inside
      exact absurd inside (by simp)
    · have cases := (adopts.sound.onChain_iff adopted).mp newOnChain
      rw [← List.cons_append] at cases
      rcases List.mem_append.mp cases with low | moved
      · exact descends.not_mem_later low member
      · obtain ⟨b, bMember, rfl⟩ := List.mem_map.mp moved
        obtain ⟨l, lMember, rfl⟩ := List.mem_map.mp bMember
        rw [inTree l lMember] at absent
        exact absurd absent (by simp)
  have headStored := adopts.lookup_kept sound sound.recorded.current
  have branchOnChain : inserted.OnChain (m.links root).block.prevHash := by
    rw [adopts.sound.onChain_iff adopted, ← List.cons_append]
    exact List.mem_append_left _ lowerDescends.self_mem
  have away : (m.links root).block.prevHash ≠ inserted.currentBlock.hash := by
    intro same
    refine adopted.not_mem_later lowerDescends.self_mem ?_
    rw [same, adopts.head_eq back backEq]
    exact List.mem_map_of_mem (List.mem_map_of_mem (List.mem_of_getLast? leads.last))
  obtain ⟨neatAfter, kept, moved⟩ := neatInserted.demote adopts.sound fair headStored lowerDescends
    descends branchOnChain away notKept demotedEq
  refine ⟨neatAfter, fun held => ?_, fun stored => ?_⟩
  · rcases keptOr held with held | member
    · exact kept held
    · exact moved _ member
  · have blocksEq : after.blocks = inserted.blocks :=
      congrArg CanonicalPart.blocks (adopts.sound.demote judges oldHeadKnown demotedEq).2
    rw [blocksEq] at stored
    rcases adopts.stored_cases stored with before | member
    · exact .inl before
    · obtain ⟨b, bMember, rfl⟩ := List.mem_map.mp member
      obtain ⟨l, lMember, rfl⟩ := List.mem_map.mp bMember
      exact .inr (.inl (Option.isSome_of_eq_some (inTree l lMember)))

/-! ### Rounds -/

/-- A chain of blocks that are new to the manager.  If it is a fork that is recorded as
heavier, then it is heavier, and nothing but itself hangs on the blocks that move. -/
structure NeatRound (tree : BlockTree) (m : ChainManager σ) (blocks : List ChainBlock) : Prop where
  proper : Proper tree m blocks
  new : ∀ b ∈ blocks, AList.lookup b.hash m.blocks = none
  moves : ∀ first ∈ blocks.head?, first.prevHash ≠ m.currentBlock.hash → m.td < m.forkTd blocks →
    (∀ last ∈ blocks.getLast?, ∀ path, tree.Descends last.hash path → m.td < tree.total path) ∧
      m.Clear (m.stem first) (m.branchHash first)

/-- Runs of such rounds; `accepted` are the blocks of the chains that passed their test. -/
inductive NeatRun (process : ChainManager σ → ChainBlock → ChainBlock → Bool × σ)
    (tree : BlockTree) : ChainManager σ → List ChainBlock → Prop
  | boot (processor : σ) : NeatRun process tree (boot tree.genesis processor) []
  | failed {m after : ChainManager σ} {accepted blocks : List ChainBlock} {left : List LinkRef} :
      NeatRun process tree m accepted → NeatRound tree m blocks →
      (m.newChain blocks).1.testChain process (m.newChain blocks).2 = some (after, left, .failed) →
      NeatRun process tree after accepted
  | passed {m tested after : ChainManager σ} {accepted blocks : List ChainBlock}
      {left : List LinkRef} {verdict : Verdict} :
      NeatRun process tree m accepted → NeatRound tree m blocks →
      (m.newChain blocks).1.testChain process (m.newChain blocks).2 = some (tested, left, verdict) →
      verdict ≠ .failed → tested.insertChain process left = some after →
      NeatRun process tree after (accepted ++ blocks)

section Round

variable {blocks : List ChainBlock} {tested : ChainManager σ} {left : List LinkRef}
variable {verdict : Verdict}

/-- What a round keeps, and what it adds. -/
structure NeatStep (m after : ChainManager σ) (blocks : List ChainBlock) : Prop where
  neat : Neat after
  kept {hash : Bytes} : m.Kept hash → after.Kept hash
  joined : ∀ b ∈ blocks, after.Kept b.hash
  covered {hash : Bytes} : (AList.lookup hash after.blocks).isSome → after.Kept hash

theorem Neat.failed_round (neat : Neat m) (sound : Sound tree m) (covered : Covered m)
    (testedEq : (m.newChain blocks).1.testChain process (m.newChain blocks).2 =
      some (after, left, .failed)) : NeatStep m after [] := by
  have allocates := allocates_newChain m blocks
  obtain ⟨front, processed, last, frontEq, processedEq, ⟨-, -, -, rfl⟩ |
    ⟨td, joined, -, verdictEq, -⟩⟩ := testChain_cases testedEq
  swap
  · split at verdictEq
    · cases verdictEq
    · cases verdictEq
  have processes := processes_processChain processedEq allocates.nodup
  have blocksEq : processed.blocks = m.blocks :=
    processes.touches.blocks_eq.trans allocates.blocks_kept
  have currentEq : processed.currentBlock = m.currentBlock :=
    processes.touches.currentBlock_eq.trans allocates.currentBlock_kept
  obtain ⟨neatAfter, kept⟩ : Neat (processed.setWorkingChain []) ∧
      ∀ {hash}, m.Kept hash → (processed.setWorkingChain []).Kept hash := neat.congr
    (processes.workingTree_eq.trans allocates.workingTree_eq) (fun found => by
      have below := (sound.recorded.tree found).1
      exact (processes.touches.links_eq (allocates.not_mem_of_lt below)).trans
        (allocates.kept below)) blocksEq currentEq
  refine ⟨neatAfter, kept, fun b member => absurd member List.not_mem_nil, fun stored => ?_⟩
  exact kept (covered (blocksEq ▸ stored))

variable (neat : Neat m) (sound : Sound tree m) (covered : Covered m) {first : ChainBlock}
variable (round : NeatRound tree m blocks) (firstEq : blocks.head? = some first)
variable (testedEq : (m.newChain blocks).1.testChain process (m.newChain blocks).2 =
  some (tested, left, verdict)) (passed : verdict ≠ .failed)
variable (inserted : tested.insertChain process left = some after)

include neat sound covered round firstEq testedEq passed inserted

/-- The blocks of a chain on top of the current block become canonical. -/
theorem Neat.extension_round (current : Current tree m) (judges : Judges process tree)
    (onTop : first.prevHash = m.currentBlock.hash) : NeatStep m after blocks := by
  have proper := round.proper
  have allocates := allocates_newChain m blocks
  have touches := (touches_testChain testedEq allocates.nodup).1
  obtain ⟨last, lastEq⟩ := exists_getLast?_of_head? firstEq
  obtain ⟨after', inserted', headEq, treeEq, lengthened⟩ :=
    sound.extension_round proper firstEq testedEq passed judges lastEq onTop
  obtain rfl : after' = after := Option.some.inj (inserted'.symm.trans inserted)
  have presented : m.present process blocks = some after' := by
    simp [present, testedEq, passed, inserted]
  have afterSound := (sound.present current judges proper presented).1
  obtain ⟨canon, descends, -⟩ := current
  have longer : tree.Descends after'.currentBlock.hash (canon ++ blocks.map ChainBlock.hash) := by
    rw [headEq]
    exact BlockTree.descends_last descends proper.linked proper.contained
      (fun b bEq => Option.some.inj (firstEq.symm.trans bEq) ▸ onTop) lastEq
  obtain ⟨linksEq, -, treeEq', -⟩ := lengthen_frame lengthened
  have onChain_iff {hash : Bytes} : after'.OnChain hash ↔
      m.OnChain hash ∨ hash ∈ blocks.map ChainBlock.hash := by
    rw [afterSound.onChain_iff longer, sound.onChain_iff descends, ← List.cons_append,
      List.mem_append]
  obtain ⟨neatAfter, kept⟩ := neat.of_tree_eq (treeEq'.trans treeEq)
    (fun found => by
      have below := (sound.recorded.tree found).1
      rw [linksEq, touches.links_eq (allocates.not_mem_of_lt below), allocates.kept below])
    (fun held => onChain_iff.mpr (.inl held))
    (fun held => by
      rcases onChain_iff.mp held with held | member
      · exact neat.apart held
      · obtain ⟨b, bMember, rfl⟩ := List.mem_map.mp member
        exact proper.absent b bMember)
  have joined : ∀ b ∈ blocks, after'.Kept b.hash := fun b member =>
    .inr (onChain_iff.mpr (.inr (List.mem_map_of_mem member)))
  refine ⟨neatAfter, kept, joined, fun stored => ?_⟩
  rcases stored_lengthen lengthened stored with before | ⟨l, member, rfl⟩
  · rw [touches.blocks_eq, allocates.blocks_kept] at before
    exact kept (covered before)
  · apply joined
    rw [touches.block_eq]
    exact allocates.block_mem member

/-- The blocks of a fork join the tree, and become canonical if it is heavier. -/
theorem Neat.fork_round
    (fair : ∀ m block parent, (process m block parent).1 = true ↔ tree.accepted block)
    (away : first.prevHash ≠ m.currentBlock.hash) : NeatStep m after blocks := by
  have judges : Judges process tree := judges_of_fair fair
  have proper := round.proper
  have allocates := allocates_newChain m blocks
  have links := sound.newLinks proper allocates
  have touches := (touches_testChain testedEq allocates.nodup).1
  have canonicalEq := touches.canonical_eq.trans allocates.canonical_eq
  have blocksEq : tested.blocks = m.blocks := congrArg CanonicalPart.blocks canonicalEq
  have currentEq : tested.currentBlock = m.currentBlock :=
    congrArg CanonicalPart.currentBlock canonicalEq
  have tdEq : tested.td = m.td := congrArg CanonicalPart.td canonicalEq
  have testedSound := links.sound.testChain judges links.fresh links.linked testedEq
  obtain ⟨last, lastEq⟩ := exists_getLast?_of_head? firstEq
  have known := sound.known_of_tested proper firstEq testedEq passed
  have forked := links.forked allocates sound judges firstEq known away testedEq passed
  have new : ∀ b ∈ blocks, ¬ m.Kept b.hash := by
    intro b member held
    rcases held with inside | onChain
    · rw [proper.absent b member] at inside
      exact absurd inside (by simp)
    · have stored := onChain.1
      rw [round.new b member] at stored
      exact absurd stored (by simp)
  obtain ⟨neatTested, kept, joined⟩ :=
    neat.forked sound.recorded allocates forked blocksEq currentEq
    proper.linked firstEq (known.elim covered .inl) new
  have coveredTested {hash : Bytes} (stored : (AList.lookup hash tested.blocks).isSome) :
      tested.Kept hash := kept (covered (blocksEq ▸ stored))
  obtain ⟨back, path, root, backEq, -, backBlock, -, -, pathEq, rootEq, branchEq, insertEq⟩ :=
    sound.fork_round proper firstEq testedEq passed judges lastEq known away
  rw [insertEq] at inserted
  split at inserted
  · rename_i recordedHeavier
    obtain ⟨heavier, roundClear⟩ := round.moves first firstEq away recordedHeavier
    obtain rfl := links.left_eq judges testedEq
    obtain ⟨rfl, stemEq⟩ := forked.path_eq allocates sound firstEq backEq pathEq
    have found : AList.lookup (tested.links back).block.hash tested.workingTree = some back := by
      rw [touches.block_eq]
      exact forked.found back (List.mem_of_getLast? backEq)
    have pathBlocks : tested.blocksOf (m.stem first ++ (m.newChain blocks).2) =
        m.blocksOf (m.stem first) ++ blocks := by
      rw [blocksOf, List.map_append]
      congr 1
      · exact List.map_congr_left fun l member => congrArg Link.block (stemEq l member)
      · exact (List.map_congr_left fun l _ => touches.block_eq l).trans allocates.blocks_eq
    have clear : tested.Clear (m.stem first ++ (m.newChain blocks).2)
        (tested.links root).block.prevHash := by
      intro hash l inTree outside
      rw [List.mem_append, not_or] at outside
      obtain ⟨oldFound, linkEq⟩ :=
        (forked.tree_cases allocates sound.recorded inTree).resolve_left outside.2
      obtain ⟨offStem, atBranch⟩ := roundClear hash l oldFound outside.1
      rw [linkEq, branchEq]
      constructor
      · rw [pathBlocks, List.map_append, List.mem_append, not_or]
        refine ⟨offStem, fun member => ?_⟩
        obtain ⟨b, bMember, hashEq⟩ := List.mem_map.mp member
        exact new b bMember (hashEq ▸ neat.closed oldFound)
      · intro onChain
        rcases atBranch (onChain.congr blocksEq.symm currentEq.symm) with atBranch | before
        · exact .inl atBranch
        · exact .inr (before.congr blocksEq)
    obtain ⟨neatAfter, keptAfter, storedCases⟩ :=
      neatTested.reOrg testedSound fair backEq found pathEq
      rootEq (fun hashes descends => tdEq ▸ heavier last lastEq hashes (backBlock ▸ descends)) clear
      inserted
    refine ⟨neatAfter, fun held => keptAfter (kept held),
      fun b member => keptAfter (joined b member), fun stored => keptAfter ?_⟩
    rcases storedCases stored with before | held
    · exact coveredTested before
    · exact held
  · cases inserted
    exact ⟨neatTested, kept, joined, coveredTested⟩

end Round

namespace NeatRun

variable {accepted blocks : List ChainBlock}

/-- A round whose test does not fail. -/
theorem round (run : NeatRun process tree m accepted) (neatRound : NeatRound tree m blocks)
    (presented : m.present process blocks = some after)
    (passed : ((m.newChain blocks).1.testChain process (m.newChain blocks).2).map (fun t => t.2.2) ≠
      some .failed) : NeatRun process tree after (accepted ++ blocks) := by
  obtain ⟨⟨tested, left, verdict⟩, testedEq, eq⟩ := Option.bind_eq_some_iff.mp presented
  have notFailed : verdict ≠ .failed := by
    rintro rfl
    exact passed (by rw [testedEq]; rfl)
  dsimp only at eq
  rw [if_neg notFailed] at eq
  exact .passed run neatRound testedEq notFailed eq

theorem neat (fair : ∀ m block parent, (process m block parent).1 = true ↔ tree.accepted block)
    (run : NeatRun process tree m accepted) :
    (Sound tree m ∧ Current tree m) ∧ Neat m ∧ Covered m ∧ ∀ b ∈ accepted, m.Kept b.hash := by
  have judges : Judges process tree := judges_of_fair fair
  induction run with
  | boot processor =>
      refine ⟨⟨.boot tree processor, [], .root, rfl⟩, .boot _ _, fun {hash} stored => ?_,
        fun b member => absurd member List.not_mem_nil⟩
      refine .inr ⟨stored, .inl ?_⟩
      rw [lookup_blocks_boot] at stored
      split at stored
      · assumption
      · exact absurd stored (by simp)
  | @failed m after accepted blocks left _ neatRound testedEq induction =>
      obtain ⟨⟨sound, current⟩, neat, covered, kept⟩ := induction
      have presented : m.present process blocks = some after := by simp [present, testedEq]
      have step := neat.failed_round sound covered testedEq
      exact ⟨sound.present current judges neatRound.proper presented, step.neat, step.covered,
        fun b member => step.kept (kept b member)⟩
  | @passed m tested after accepted blocks left verdict _ neatRound testedEq notFailed inserted
      induction =>
      obtain ⟨⟨sound, current⟩, neat, covered, kept⟩ := induction
      have presented : m.present process blocks = some after := by
        simp [present, testedEq, notFailed, inserted]
      have step : NeatStep m after blocks := by
        obtain ⟨front, -, -, frontEq, -⟩ := testChain_cases testedEq
        have firstEq := congrArg List.head? (allocates_newChain m blocks).blocks_eq
        rw [List.head?_map, frontEq] at firstEq
        by_cases onTop : ((m.newChain blocks).1.links front).block.prevHash = m.currentBlock.hash
        · exact neat.extension_round sound covered neatRound firstEq.symm testedEq notFailed
            inserted current judges onTop
        · exact neat.fork_round sound covered neatRound firstEq.symm testedEq notFailed inserted
            fair onTop
      refine ⟨sound.present current judges neatRound.proper presented, step.neat, step.covered,
        fun b member => ?_⟩
      rcases List.mem_append.mp member with member | member
      · exact step.kept (kept b member)
      · exact step.joined b member

end NeatRun

/-- In a run of such rounds the blocks of the accepted chains are in the tree or canonical.
The parent of a link is the link of its parent block, and there is none exactly if
the parent block is canonical. -/
theorem working_tree_neat (process : ChainManager σ → ChainBlock → ChainBlock → Bool × σ)
    (tree : BlockTree)
    (fair : ∀ m block parent, (process m block parent).1 = true ↔ tree.accepted block)
    (m : ChainManager σ) (accepted : List ChainBlock) (run : NeatRun process tree m accepted) :
    (∀ b ∈ accepted, (AList.lookup b.hash m.workingTree).isSome ∨ m.OnChain b.hash) ∧
      ∀ hash l, AList.lookup hash m.workingTree = some l →
        (m.links l).parent = AList.lookup (m.links l).block.prevHash m.workingTree ∧
          ((m.links l).parent = none ↔ m.OnChain (m.links l).block.prevHash) := by
  obtain ⟨-, neat, -, kept⟩ := run.neat fair
  exact ⟨kept, fun hash l found => ⟨neat.parent_eq found, neat.parent_none_iff found⟩⟩

theorem working_tree_neat_twig : ∃ m,
    rounds acceptAll (boot origin ()) [[trunk], [twig]] = some m ∧
      (∀ b ∈ [trunk, twig], (AList.lookup b.hash m.workingTree).isSome ∨ m.OnChain b.hash) ∧
      ∀ hash l, AList.lookup hash m.workingTree = some l →
        (m.links l).parent = AList.lookup (m.links l).block.prevHash m.workingTree ∧
          ((m.links l).parent = none ↔ m.OnChain (m.links l).block.prevHash) := by
  have start : NeatRound sampleTree (boot origin ()) [trunk] := by
    refine ⟨⟨.singleton _, ?_, ?_⟩, by decide +kernel, ?_⟩
    · exact fun b member => sampleTree_contains (by simp [List.mem_singleton.mp member])
    · exact fun b _ => AList.lookup_empty b.hash
    · intro first firstEq away
      obtain rfl : trunk = first := Option.some.inj firstEq
      exact absurd (by decide +kernel : trunk.prevHash = (boot origin ()).currentBlock.hash) away
  obtain ⟨m, presented⟩ := Option.isSome_iff_exists.mp
    (by decide +kernel : ((boot origin ()).present acceptAll [trunk]).isSome)
  have run : NeatRun acceptAll sampleTree m [trunk] :=
    (NeatRun.boot ()).round start presented (by decide +kernel)
  have values : ((boot origin ()).present acceptAll [trunk]).map (fun m =>
      (AList.lookup twig.hash m.workingTree, AList.lookup twig.hash m.blocks,
        decide (m.td < m.forkTd [twig]), (m.present acceptAll [twig]).isSome,
        ((m.newChain [twig]).1.testChain acceptAll (m.newChain [twig]).2).map fun t => t.2.2)) =
      some (none, none, false, true, some .tooLight) := by decide +kernel
  rw [presented, Option.map_some] at values
  obtain ⟨absent, new, lighter, returns, verdictEq⟩ :
      _ = none ∧ _ = none ∧ _ = false ∧ _ = true ∧ _ =
      some Verdict.tooLight := by
    simpa only [Option.some.injEq, Prod.mk.injEq] using values
  have fork : NeatRound sampleTree m [twig] := by
    refine ⟨⟨.singleton _, ?_, ?_⟩, ?_, fun _ _ _ heavier => ?_⟩
    · exact fun b member => sampleTree_contains (by simp [List.mem_singleton.mp member])
    · exact fun b member => List.mem_singleton.mp member ▸ absent
    · exact fun b member => List.mem_singleton.mp member ▸ new
    · exact absurd heavier (of_decide_eq_false lighter)
  obtain ⟨after, presentedTwig⟩ := Option.isSome_iff_exists.mp returns
  have whole : NeatRun acceptAll sampleTree after [trunk, twig] :=
    run.round fork presentedTwig (by rw [verdictEq]; decide)
  refine ⟨after, by simp [rounds, presented, presentedTwig], ?_⟩
  exact working_tree_neat acceptAll sampleTree (fun _ _ _ => ⟨fun _ => trivial, fun _ => rfl⟩) after
    [trunk, twig] whole

/-- The twig is presented again with its leaf: the chain is accepted, but the loop that adds
it to the tree ends at the known twig, and the leaf is nowhere. -/
theorem leaf_of_known_twig_lost : ∃ m tested left after,
    rounds acceptAll (boot origin ()) [[trunk], [twig]] = some m ∧ HashLinked [twig, twigLeaf] ∧
      m.Known twig.prevHash ∧
      (m.newChain [twig, twigLeaf]).1.testChain acceptAll (m.newChain [twig, twigLeaf]).2 =
        some (tested, left, .tooLight) ∧
      tested.insertChain acceptAll left = some after ∧
      AList.lookup twigLeaf.hash after.workingTree = none ∧ ¬ after.OnChain twigLeaf.hash := by
  have outcome : ((rounds acceptAll (boot origin ()) [[trunk], [twig]]).bind fun m =>
      ((m.newChain [twig, twigLeaf]).1.testChain acceptAll (m.newChain [twig, twigLeaf]).2).bind
        fun t => (t.1.insertChain acceptAll t.2.1).map fun after =>
          ((AList.lookup twig.prevHash m.blocks).isSome, t.2.2,
            AList.lookup twigLeaf.hash after.workingTree,
              AList.lookup twigLeaf.hash after.blocks)) =
      some (true, .tooLight, none, none) := by decide +kernel
  obtain ⟨m, run, outcome⟩ := Option.bind_eq_some_iff.mp outcome
  obtain ⟨⟨tested, left, verdict⟩, testedEq, outcome⟩ := Option.bind_eq_some_iff.mp outcome
  obtain ⟨after, inserted, values⟩ := Option.map_eq_some_iff.mp outcome
  obtain ⟨known, rfl, absent, unknown⟩ : _ = true ∧ verdict = .tooLight ∧ _ = none ∧ _ = none := by
    simpa only [Prod.mk.injEq] using values
  refine ⟨m, tested, left, after, run, by decide +kernel, .inl known, testedEq, inserted, absent,
    ?_⟩
  rintro ⟨stored, -⟩
  rw [unknown] at stored
  exact absurd stored (by simp)

end ChainManager

end Thelonious
