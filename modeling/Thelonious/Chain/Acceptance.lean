import Thelonious.Chain.Processing

/-!
# The blocks that the managers accept

Every block the managers know is genesis or came from outside, but for its `GasUsed`,
and it is known under a hash that it has had.  When the numbers of these blocks fit
their parents', an accepted block extends its parent, and `GetBlockByNumber` finds the
ancestors of the head.
-/

namespace Thelonious

/-- The block is one of the sources, but for its `GasUsed`. -/
def Block.VersionOf (sources : List Block) (block : Block) : Prop :=
  ∃ source ∈ sources, ∃ gasUsed, block = source.setGasUsed gasUsed

/-- The block is one of the sources, and the hash is the one it has with some `GasUsed`. -/
def Block.Named (sha3Bin : Bytes → Bytes) (sources : List Block) (hash : Bytes) (block : Block) :
    Prop :=
  ∃ source ∈ sources, (∃ gasUsed, block = source.setGasUsed gasUsed) ∧
    ∃ gasUsed, hash = (source.setGasUsed gasUsed).hash sha3Bin

namespace Block

variable {sha3Bin : Bytes → Bytes} {sources : List Block} {hash : Bytes} {block : Block}

theorem versionOf_of_mem (member : block ∈ sources) : block.VersionOf sources :=
  ⟨block, member, block.header.gasUsed, rfl⟩

theorem VersionOf.setGasUsed (version : block.VersionOf sources) (gasUsed : Int) :
    (block.setGasUsed gasUsed).VersionOf sources := by
  obtain ⟨source, member, old, rfl⟩ := version
  exact ⟨source, member, gasUsed, rfl⟩

theorem VersionOf.named (version : block.VersionOf sources) :
    block.Named sha3Bin sources (block.hash sha3Bin) := by
  obtain ⟨source, member, gasUsed, rfl⟩ := version
  exact ⟨source, member, ⟨gasUsed, rfl⟩, gasUsed, rfl⟩

theorem Named.versionOf (named : block.Named sha3Bin sources hash) : block.VersionOf sources := by
  obtain ⟨source, member, version, -⟩ := named
  exact ⟨source, member, version⟩

theorem Named.setGasUsed (named : block.Named sha3Bin sources hash) (gasUsed : Int) :
    (block.setGasUsed gasUsed).Named sha3Bin sources hash := by
  obtain ⟨source, member, ⟨old, rfl⟩, name⟩ := named
  exact ⟨source, member, ⟨gasUsed, rfl⟩, name⟩

end Block

namespace Validator

variable {protocol : Protocol} {sha3Bin : Bytes → Bytes} {sources : List Block}
  {v before after : Validator}

/-! ### Objects that are looked up and allocated -/

/-- Where `GetBlock` finds a block. -/
theorem getBlock_cases {hash : Bytes} {place : Found}
    (found : v.getBlock sha3Bin hash = some place) :
    (∃ block, place = .stored block ∧ AList.lookup hash v.records = some block) ∨
      ∃ l, place = .working (v.links l).block ∧
        (AList.lookup hash v.workingTree = some l ∨ v.hashOf sha3Bin (v.links l).block = hash) := by
  unfold getBlock at found
  cases recorded : v.getBlockCanonical hash with
  | some block =>
      rw [recorded] at found
      exact .inl ⟨block, (Option.some.inj found).symm, recorded⟩
  | none =>
      rw [recorded] at found
      obtain ⟨ref, workingEq, rfl⟩ := Option.map_eq_some_iff.mp found
      unfold getBlockWorking at workingEq
      cases joined : AList.lookup hash v.workingTree with
      | some l =>
          rw [joined] at workingEq
          cases workingEq
          exact .inr ⟨l, rfl, .inl rfl⟩
      | none =>
          rw [joined] at workingEq
          obtain ⟨l, first, rfl⟩ := Option.map_eq_some_iff.mp workingEq
          have matched := List.find?_some first
          exact .inr ⟨l, rfl, .inr (of_decide_eq_true matched)⟩

section Allocation

variable (v : Validator) (found : Found)

@[simp] theorem adopt_records : (v.adopt found).1.records = v.records := by
  cases found <;> rfl

@[simp] theorem adopt_workingTree : (v.adopt found).1.workingTree = v.workingTree := by
  cases found <;> rfl

@[simp] theorem adopt_links : (v.adopt found).1.links = v.links := by
  cases found <;> rfl

@[simp] theorem adopt_nextLink : (v.adopt found).1.nextLink = v.nextLink := by
  cases found <;> rfl

theorem le_nextBlock_adopt : v.nextBlock ≤ (v.adopt found).1.nextBlock := by
  cases found with
  | stored => exact Nat.le_succ _
  | working => exact le_rfl

theorem adopt_blocks_cases (ref : BlockRef) :
    (v.adopt found).1.blocks ref = v.blocks ref ∨
      (v.adopt found).1.blocks ref = v.contents found := by
  cases found with
  | working => exact .inl rfl
  | stored block =>
      by_cases same : ref = v.nextBlock
      · subst same
        exact .inr (Function.update_self ..)
      · exact .inl (Function.update_of_ne same ..)

variable {v found}

theorem adopt_blocks_of_lt {ref : BlockRef} (bound : ref < v.nextBlock) :
    (v.adopt found).1.blocks ref = v.blocks ref := by
  cases found with
  | working => rfl
  | stored => exact Function.update_of_ne bound.ne ..

theorem newLink_links_self (ref : BlockRef) :
    (v.newLink ref).1.links v.nextLink = ⟨ref, none, none⟩ :=
  Function.update_self ..

variable {l : LinkRef}

theorem newLink_links_of_ne (ref : BlockRef) (other : l ≠ v.nextLink) :
    (v.newLink ref).1.links l = v.links l :=
  Function.update_of_ne other ..

theorem newLink_links_of_lt (ref : BlockRef) (bound : l < v.nextLink) :
    (v.newLink ref).1.links l = v.links l :=
  newLink_links_of_ne ref bound.ne

theorem newChain_cons (v : Validator) (found : Found) (founds : List Found) :
    v.newChain (found :: founds) =
      ((((v.adopt found).1.newLink (v.adopt found).2).1.newChain founds).1,
        ((v.adopt found).1.newLink (v.adopt found).2).2 ::
          (((v.adopt found).1.newLink (v.adopt found).2).1.newChain founds).2) := rfl

theorem le_nextLink_newChain (v : Validator) (founds : List Found) :
    v.nextLink ≤ (v.newChain founds).1.nextLink := by
  induction founds generalizing v with
  | nil => exact le_rfl
  | cons found founds induction =>
      calc v.nextLink = (v.adopt found).1.nextLink := (adopt_nextLink v found).symm
        _ ≤ ((v.adopt found).1.newLink (v.adopt found).2).1.nextLink := Nat.le_succ _
        _ ≤ _ := induction _

theorem joinLink_link_block (done : List LinkRef) (l : LinkRef) (parent : Option LinkRef)
    (base : Int) (other : LinkRef) :
    ((v.joinLink protocol done l parent base).links other).block = (v.links other).block := by
  have parentKept : ((v.setParent parent l).links other).block = (v.links other).block := by
    by_cases same : other = l
    · subst same
      simp [setParent]
    · simp [setParent, Function.update_of_ne same]
  simp only [joinLink, setWorkingTree, shareTd]
  split
  · exact parentKept
  · exact parentKept

theorem lookup_of_forget {path : List LinkRef} {hash : Bytes}
    (joined : AList.lookup hash (v.forget protocol path).workingTree = some l) :
    AList.lookup hash v.workingTree = some l := by
  simp only [forget, setWorkingTree] at joined
  generalize v.workingTree = tree at joined ⊢
  induction path generalizing tree with
  | nil => exact joined
  | cons first path induction =>
      have kept := induction _ joined
      by_cases same : hash = v.hashOf protocol.model.sha3Bin (v.links first).block
      · subst same
        rw [AList.lookup_erase] at kept
        cases kept
      · rwa [AList.lookup_erase_ne same] at kept

end Allocation

/-- The blocks that are known come from the sources. -/
structure Familiar (sha3Bin : Bytes → Bytes) (sources : List Block) (v : Validator) : Prop where
  block (ref : BlockRef) : (v.blocks ref).VersionOf sources
  record {hash : Bytes} {block : Block} :
    AList.lookup hash v.records = some block → block.Named sha3Bin sources hash
  tree {hash : Bytes} {l : LinkRef} : AList.lookup hash v.workingTree = some l →
    l < v.nextLink ∧ (v.blocks (v.links l).block).Named sha3Bin sources hash
  link (l : LinkRef) : (v.links l).block < v.nextBlock

/-- A block that can be put into a chain. -/
def Offers (sources : List Block) (v : Validator) : Found → Prop
  | .stored block => block.VersionOf sources
  | .working ref => ref < v.nextBlock

theorem Offers.mono {found : Found} (offers : before.Offers sources found)
    (grown : before.nextBlock ≤ after.nextBlock) : after.Offers sources found := by
  cases found with
  | stored => exact offers
  | working => exact lt_of_lt_of_le offers grown

theorem adopt_lt {found : Found} (offers : v.Offers sources found) :
    (v.adopt found).2 < (v.adopt found).1.nextBlock := by
  cases found with
  | stored => exact Nat.lt_succ_self _
  | working => exact offers

theorem offers_stored {blocks : List Block} (listed : ∀ block ∈ blocks, block ∈ sources) :
    ∀ found ∈ blocks.map Found.stored, v.Offers sources found := by
  intro found member
  obtain ⟨block, known, rfl⟩ := List.mem_map.mp member
  exact Block.versionOf_of_mem (listed block known)

namespace Familiar

theorem contents (familiar : Familiar sha3Bin sources v) {found : Found}
    (offers : v.Offers sources found) : (v.contents found).VersionOf sources := by
  cases found with
  | stored block => exact offers
  | working ref => exact familiar.block ref

theorem touch (familiar : Familiar sha3Bin sources before) (touches : Touches before after) :
    Familiar sha3Bin sources after where
  block ref := by
    obtain ⟨gasUsed, blockEq⟩ := touches.block ref
    rw [blockEq]
    exact (familiar.block ref).setGasUsed gasUsed
  record found := by
    rw [touches.records] at found
    exact familiar.record found
  tree {hash l} found := by
    rw [touches.workingTree] at found
    obtain ⟨bound, named⟩ := familiar.tree found
    obtain ⟨gasUsed, blockEq⟩ := touches.block (before.links l).block
    refine ⟨touches.nextLink ▸ bound, ?_⟩
    rw [(touches.link l).1, blockEq]
    exact named.setGasUsed gasUsed
  link l := by
    rw [(touches.link l).1, touches.nextBlock]
    exact familiar.link l

theorem named_of_lookup (familiar : Familiar sha3Bin sources v) {hash : Bytes} {block : Block}
    (found : v.lookup sha3Bin hash = some block) : block.Named sha3Bin sources hash := by
  obtain ⟨place, placeEq, rfl⟩ := Option.map_eq_some_iff.mp found
  rcases getBlock_cases placeEq with ⟨record, rfl, recorded⟩ | ⟨l, rfl, joined | hashEq⟩
  · exact familiar.record recorded
  · exact (familiar.tree joined).2
  · rw [← hashEq]
    exact (familiar.block _).named

theorem offers_of_getBlock (familiar : Familiar sha3Bin sources v) {hash : Bytes} {place : Found}
    (found : v.getBlock sha3Bin hash = some place) : v.Offers sources place := by
  rcases getBlock_cases found with ⟨record, rfl, recorded⟩ | ⟨l, rfl, -⟩
  · exact (familiar.record recorded).versionOf
  · exact familiar.link l

/-! ### Chains are made, joined to the tree and inserted -/

theorem adopt (familiar : Familiar sha3Bin sources v) {found : Found}
    (offers : v.Offers sources found) : Familiar sha3Bin sources (v.adopt found).1 where
  block ref := by
    rcases adopt_blocks_cases v found ref with blockEq | blockEq
    · rw [blockEq]
      exact familiar.block ref
    · rw [blockEq]
      exact familiar.contents offers
  record := by
    rw [adopt_records]
    exact familiar.record
  tree {hash l} joined := by
    rw [adopt_workingTree] at joined
    obtain ⟨bound, named⟩ := familiar.tree joined
    rw [adopt_nextLink, adopt_links, adopt_blocks_of_lt (familiar.link l)]
    exact ⟨bound, named⟩
  link l := by
    rw [adopt_links]
    exact (familiar.link l).trans_le (le_nextBlock_adopt v found)

theorem getMessages {block : Block} (familiar : Familiar protocol.model.sha3Bin sources v)
    (known : block ∈ sources) (queried : v.getMessages protocol block = some after) :
    Familiar protocol.model.sha3Bin sources after := by
  unfold Validator.getMessages at queried
  cases parentEq : v.getBlockCanonical block.header.prevHash with
  | none =>
      rw [parentEq] at queried
      cases queried
      exact familiar
  | some parent =>
      rw [parentEq] at queried
      have offers : v.Offers sources (.stored block) := Block.versionOf_of_mem known
      have attempted := familiar.adopt offers
      obtain ⟨processing, -, queried⟩ := Option.bind_eq_some_iff.mp queried
      cases processing with
      | processing | panicked | unfinished => cases queried
      | returned | mismatch =>
          cases queried
          exact ⟨attempted.block, attempted.record, attempted.tree, attempted.link⟩

theorem newLink (familiar : Familiar sha3Bin sources v) {ref : BlockRef}
    (bound : ref < v.nextBlock) : Familiar sha3Bin sources (v.newLink ref).1 where
  block := familiar.block
  record := familiar.record
  tree {hash l} joined := by
    obtain ⟨linkBound, named⟩ := familiar.tree joined
    rw [newLink_links_of_lt ref linkBound]
    exact ⟨linkBound.trans (Nat.lt_succ_self _), named⟩
  link l := by
    by_cases same : l = v.nextLink
    · rw [same, newLink_links_self]
      exact bound
    · rw [newLink_links_of_ne ref same]
      exact familiar.link l

theorem newChain (familiar : Familiar sha3Bin sources v) {founds : List Found}
    (offers : ∀ found ∈ founds, v.Offers sources found) :
    Familiar sha3Bin sources (v.newChain founds).1 ∧
      ∀ l ∈ (v.newChain founds).2, l < (v.newChain founds).1.nextLink := by
  induction founds generalizing v with
  | nil =>
      refine ⟨familiar, ?_⟩
      intro l member
      cases member
  | cons found founds induction =>
      have bound := adopt_lt (offers found List.mem_cons_self)
      have linked := (familiar.adopt (offers found List.mem_cons_self)).newLink bound
      have later : ∀ other ∈ founds,
          Offers sources ((v.adopt found).1.newLink (v.adopt found).2).1 other :=
        fun other member =>
          (offers other (List.mem_cons_of_mem _ member)).mono (le_nextBlock_adopt v found)
      obtain ⟨made, bounds⟩ := induction linked later
      refine ⟨made, ?_⟩
      intro l member
      rcases List.mem_cons.mp member with rfl | member
      · have grown := le_nextLink_newChain ((v.adopt found).1.newLink (v.adopt found).2).1 founds
        exact lt_of_lt_of_le (Nat.lt_succ_self (v.adopt found).1.nextLink) grown
      · exact bounds l member

/-- A link joins the tree under the hash of its block. -/
theorem joinLink (familiar : Familiar protocol.model.sha3Bin sources v) (before : List LinkRef)
    {l : LinkRef} (bound : l < v.nextLink) (parent : Option LinkRef) (base : Int) :
    Familiar protocol.model.sha3Bin sources (v.joinLink protocol before l parent base) where
  block := familiar.block
  record := familiar.record
  tree {hash other} joined := by
    rw [joinLink_link_block]
    by_cases same : hash = v.hashOf protocol.model.sha3Bin (v.links l).block
    · subst same
      have found : other = l := Option.some.inj (joined.symm.trans (AList.lookup_insert _))
      rw [found]
      exact ⟨bound, (familiar.block _).named⟩
    · exact familiar.tree ((AList.lookup_insert_ne same).symm.trans joined)
  link other := by
    rw [joinLink_link_block]
    exact familiar.link other

variable {chain left : List LinkRef} {ancestorHash : Bytes}

theorem joinTree {done : List LinkRef} (familiar : Familiar protocol.model.sha3Bin sources v)
    (bounds : ∀ l ∈ chain, l < v.nextLink)
    (joined : v.joinTree protocol done chain = some (after, left)) :
    Familiar protocol.model.sha3Bin sources after ∧ after.nextLink = v.nextLink ∧
      ∀ l ∈ left, l ∈ done ++ chain := by
  induction chain generalizing v done with
  | nil =>
      cases joined
      exact ⟨familiar, rfl, fun l member => List.mem_append_left _ member⟩
  | cons l rest induction =>
      unfold Validator.joinTree at joined
      dsimp only at joined
      split at joined
      · cases joined
        refine ⟨familiar, rfl, ?_⟩
        intro other member
        rcases List.mem_append.mp member with old | new
        · exact List.mem_append_left _ old
        · exact List.mem_append_right _ (List.mem_cons_of_mem _ new)
      · obtain ⟨place, -, joined⟩ := Option.bind_eq_some_iff.mp joined
        cases place with
        | none =>
            cases joined
            exact ⟨familiar, rfl, fun _ member => member⟩
        | some place =>
            obtain ⟨parent, base⟩ := place
            obtain ⟨kept, nextEq, members⟩ := induction
              (familiar.joinLink done (bounds l List.mem_cons_self) parent base)
              (fun other member => bounds other (List.mem_cons_of_mem _ member)) joined
            refine ⟨kept, nextEq, ?_⟩
            intro other member
            have listed := members other member
            rwa [List.append_assoc, List.singleton_append] at listed

theorem recordFork {fork : Bool} (familiar : Familiar protocol.model.sha3Bin sources v)
    (bounds : ∀ l ∈ chain, l < v.nextLink)
    (joined : v.recordFork protocol fork chain = some (after, left)) :
    Familiar protocol.model.sha3Bin sources after ∧ after.nextLink = v.nextLink ∧
      ∀ l ∈ left, l ∈ chain := by
  unfold Validator.recordFork at joined
  split at joined
  · obtain ⟨kept, nextEq, members⟩ := familiar.joinTree bounds joined
    exact ⟨kept, nextEq, members⟩
  · cases joined
    exact ⟨familiar, rfl, fun _ member => member⟩

theorem setWorkingChain (familiar : Familiar sha3Bin sources v) (chain : List LinkRef) :
    Familiar sha3Bin sources (v.setWorkingChain chain) :=
  ⟨familiar.block, familiar.record, familiar.tree, familiar.link⟩

theorem setHead (familiar : Familiar sha3Bin sources v) (ref : BlockRef) (hash : Bytes) :
    Familiar sha3Bin sources (v.setHead ref hash) :=
  ⟨familiar.block, familiar.record, familiar.tree, familiar.link⟩

theorem testChain {verdict : Verdict} (familiar : Familiar protocol.model.sha3Bin sources v)
    (bounds : ∀ l ∈ chain, l < v.nextLink)
    (tested : v.testChain protocol chain = some (after, left, verdict)) :
    Familiar protocol.model.sha3Bin sources after ∧ ∀ l ∈ left, l < after.nextLink := by
  obtain ⟨front, looped, result, -, loopEq, outcome⟩ := testChain_cases tested
  have touches := touches_processChain loopEq
  have kept := (familiar.setWorkingChain chain).touch touches
  have nextEq : looped.nextLink = v.nextLink := touches.nextLink
  rcases outcome with ⟨err, -, rfl, rfl, -⟩ | ⟨td, joined, fork, -, joinEq, rfl, -⟩
  · exact ⟨kept.setWorkingChain [], fun l member => nextEq ▸ bounds l member⟩
  · obtain ⟨joinedKept, joinedNext, members⟩ :=
      kept.recordFork (fun l member => nextEq ▸ bounds l member) joinEq
    refine ⟨joinedKept.setWorkingChain [], ?_⟩
    intro l member
    have bound : l < v.nextLink := bounds l (members l member)
    rwa [← nextEq, ← joinedNext] at bound

theorem add (familiar : Familiar sha3Bin sources v) (ref : BlockRef) :
    Familiar sha3Bin sources (v.add sha3Bin ref) where
  block := familiar.block
  record {hash block} found := by
    by_cases same : hash = v.hashOf sha3Bin ref
    · subst same
      have recorded : block = v.blocks ref :=
        Option.some.inj (found.symm.trans (AList.lookup_insert _))
      rw [recorded]
      exact (familiar.block ref).named
    · exact familiar.record ((AList.lookup_insert_ne same).symm.trans found)
  tree := familiar.tree
  link := familiar.link

theorem lengthen (familiar : Familiar protocol.model.sha3Bin sources v)
    (lengthened : v.lengthen protocol chain = some after) :
    Familiar protocol.model.sha3Bin sources after := by
  induction chain generalizing v with
  | nil =>
      cases lengthened
      exact familiar
  | cons l rest induction =>
      obtain ⟨td, -, lengthened⟩ := Option.bind_eq_some_iff.mp lengthened
      have counted : Familiar protocol.model.sha3Bin sources (v.setTotalDifficulty td) :=
        ⟨familiar.block, familiar.record, familiar.tree, familiar.link⟩
      exact induction (counted.add _) lengthened

theorem insertChainWith {reOrg : Validator → List LinkRef → Option Validator}
    (familiar : Familiar protocol.model.sha3Bin sources v)
    (reorganised : reOrg v chain = some after → Familiar protocol.model.sha3Bin sources after)
    (inserted : v.insertChainWith protocol reOrg chain = some after) :
    Familiar protocol.model.sha3Bin sources after := by
  obtain ⟨front, -, inserted⟩ := Option.bind_eq_some_iff.mp inserted
  obtain ⟨back, -, inserted⟩ := Option.bind_eq_some_iff.mp inserted
  obtain ⟨branchParent, -, inserted⟩ := Option.bind_eq_some_iff.mp inserted
  split at inserted
  · exact familiar.lengthen inserted
  · obtain ⟨td, -, inserted⟩ := Option.bind_eq_some_iff.mp inserted
    split at inserted
    · exact reorganised inserted
    · cases inserted
      exact familiar

/-! ### Reorganisations -/

theorem forget (familiar : Familiar protocol.model.sha3Bin sources v) (path : List LinkRef) :
    Familiar protocol.model.sha3Bin sources (v.forget protocol path) where
  block := familiar.block
  record := familiar.record
  tree joined := familiar.tree (lookup_of_forget joined)
  link := familiar.link

theorem revert {bchain : List LinkRef} {oldHead : Block}
    (familiar : Familiar protocol.model.sha3Bin sources v)
    (reverted : v.revert protocol chain = some (after, bchain, oldHead, ancestorHash)) :
    Familiar protocol.model.sha3Bin sources after ∧ (∀ l ∈ bchain, l < after.nextLink) ∧
      oldHead.VersionOf sources := by
  obtain ⟨back, -, reverted⟩ := Option.bind_eq_some_iff.mp reverted
  obtain ⟨path, -, reverted⟩ := Option.bind_eq_some_iff.mp reverted
  obtain ⟨root, -, reverted⟩ := Option.bind_eq_some_iff.mp reverted
  obtain ⟨ancestor, ancestorEq, reverted⟩ := Option.bind_eq_some_iff.mp reverted
  obtain ⟨head, headEq, reverted⟩ := Option.bind_eq_some_iff.mp reverted
  cases reverted
  have offers : ∀ found ∈ path.map fun l => Found.working (v.links l).block,
      (v.forget protocol path).Offers sources found := by
    intro found member
    obtain ⟨l, -, rfl⟩ := List.mem_map.mp member
    exact familiar.link l
  obtain ⟨made, bounds⟩ := (familiar.forget path).newChain offers
  have known : (Validator.newChain (v.forget protocol path)
      (path.map fun l => Found.working (v.links l).block)).1.Offers sources (.stored ancestor) :=
    (familiar.record ancestorEq).versionOf
  refine ⟨(made.adopt known).setHead _ _, ?_, (familiar.record headEq).versionOf⟩
  intro l member
  exact bounds l member

theorem offers_of_blocksAbove {fuel : Nat} {b : Found} {blocks : List Found}
    (familiar : Familiar protocol.model.sha3Bin sources v) (offers : v.Offers sources b)
    (walked : v.blocksAbove protocol ancestorHash fuel b = some blocks) :
    ∀ found ∈ blocks, v.Offers sources found := by
  induction fuel generalizing b blocks with
  | zero => cases walked
  | succ fuel induction =>
      unfold Validator.blocksAbove at walked
      split at walked
      · cases walked
        intro found member
        cases member
      · obtain ⟨parent, parentEq, walked⟩ := Option.bind_eq_some_iff.mp walked
        obtain ⟨above, aboveEq, walked⟩ := Option.bind_eq_some_iff.mp walked
        cases walked
        intro found member
        rcases List.mem_append.mp member with earlier | last
        · exact induction (familiar.offers_of_getBlock parentEq) aboveEq found earlier
        · rw [List.mem_singleton.mp last]
          exact offers

theorem demote {oldHead : Block} (familiar : Familiar protocol.model.sha3Bin sources v)
    (known : oldHead.VersionOf sources)
    (demoted : v.demote protocol oldHead ancestorHash = some after) :
    Familiar protocol.model.sha3Bin sources after := by
  obtain ⟨blocks, walked, demoted⟩ := Option.bind_eq_some_iff.mp demoted
  obtain ⟨⟨tested, left, verdict⟩, testedEq, demoted⟩ := Option.bind_eq_some_iff.mp demoted
  cases demoted
  have offered : v.Offers sources (.stored oldHead) := known
  obtain ⟨made, bounds⟩ := familiar.newChain (familiar.offers_of_blocksAbove offered walked)
  exact (made.testChain bounds testedEq).1

theorem reOrg (familiar : Familiar protocol.model.sha3Bin sources v)
    (reorganised : v.reOrg protocol chain = some after) :
    Familiar protocol.model.sha3Bin sources after := by
  obtain ⟨⟨reverted, bchain, oldHead, ancestorHash⟩, revertEq, reorganised⟩ :=
    Option.bind_eq_some_iff.mp reorganised
  obtain ⟨back, bounds, known⟩ := familiar.revert revertEq
  obtain ⟨⟨tested, left, verdict⟩, testedEq, reorganised⟩ := Option.bind_eq_some_iff.mp reorganised
  have kept := (back.testChain bounds testedEq).1
  dsimp only at reorganised
  split at reorganised
  · obtain ⟨inserted, insertedEq, reorganised⟩ := Option.bind_eq_some_iff.mp reorganised
    have grown := kept.insertChainWith (fun impossible => by cases impossible) insertedEq
    exact grown.demote known reorganised
  · cases reorganised
    have offers : tested.Offers sources (.stored oldHead) := known
    exact (kept.adopt offers).setHead _ _

/-! ### Whole runs -/

theorem load {blocks : List Block} (familiar : Familiar sha3Bin sources v)
    (listed : ∀ block ∈ blocks, block ∈ sources) :
    Familiar sha3Bin sources (v.load blocks).1 ∧
      ∀ l ∈ (v.load blocks).2, l < (v.load blocks).1.nextLink :=
  familiar.newChain (offers_stored listed)

theorem present {blocks : List Block} (familiar : Familiar protocol.model.sha3Bin sources v)
    (listed : ∀ block ∈ blocks, block ∈ sources)
    (presented : v.present protocol blocks = some after) :
    Familiar protocol.model.sha3Bin sources after := by
  obtain ⟨⟨tested, left, verdict⟩, testedEq, presented⟩ := Option.bind_eq_some_iff.mp presented
  obtain ⟨made, bounds⟩ := familiar.load listed
  have kept := (made.testChain bounds testedEq).1
  dsimp only at presented
  split at presented
  · cases presented
    exact kept
  · exact kept.insertChainWith kept.reOrg presented

theorem perform {action : Action} (familiar : Familiar protocol.model.sha3Bin sources v)
    (listed : ∀ block ∈ action.blocks, block ∈ sources)
    (performed : v.perform protocol action = some after) :
    Familiar protocol.model.sha3Bin sources after := by
  cases action with
  | present blocks => exact familiar.present listed performed
  | checkPoint proposed =>
      cases performed
      unfold Validator.checkPoint
      split
      · exact ⟨familiar.block, familiar.record, familiar.tree, familiar.link⟩
      · exact familiar
  | receiveCheckPointBlock block =>
      cases performed
      unfold Validator.receiveCheckPointBlock
      split
      · have offers : v.Offers sources (.stored block) :=
          Block.versionOf_of_mem (listed block List.mem_cons_self)
        exact (familiar.adopt offers).add _
      · exact familiar
  | getMessages block =>
      have known : block ∈ sources := listed block List.mem_cons_self
      exact familiar.getMessages known performed

theorem run {actions : List Action} (familiar : Familiar protocol.model.sha3Bin sources v)
    (listed : ∀ block ∈ actions.flatMap Action.blocks, block ∈ sources)
    (reached : v.run protocol actions = some after) :
    Familiar protocol.model.sha3Bin sources after := by
  induction actions generalizing v with
  | nil =>
      cases reached
      exact familiar
  | cons action later induction =>
      obtain ⟨next, performed, reached⟩ := Option.bind_eq_some_iff.mp reached
      rw [List.flatMap_cons] at listed
      have kept := familiar.perform (fun block member =>
        listed block (List.mem_append_left _ member)) performed
      exact induction kept (fun block member => listed block (List.mem_append_right _ member))
        reached

theorem boot (genesis : Block) (db : Database) (member : genesis ∈ sources) :
    Familiar sha3Bin sources (Validator.boot sha3Bin genesis db) := by
  apply add
  constructor
  case block => exact fun _ => Block.versionOf_of_mem member
  case record =>
    intro hash block found
    cases found
  case tree =>
    intro hash l found
    cases found
  case link => exact fun _ => Nat.zero_lt_one

end Familiar

end Validator

end Thelonious
