import Thelonious.Chain.Reorganisation

/-!
# The links of the working tree

When only hash-linked chains are tested, the parent of a link has the hash that
its block names, and the walk from a link of the tree through the parents ends at
one whose parent block is in the database.
-/

namespace Thelonious

/-- `child` names `parent` as the block before it. -/
def Follows (parent child : ChainBlock) : Prop := child.prevHash = parent.hash

instance : DecidableRel Follows := fun parent child =>
  inferInstanceAs (Decidable (child.prevHash = parent.hash))

/-- A hash-linked chain. -/
abbrev HashLinked (blocks : List ChainBlock) : Prop := blocks.IsChain Follows

namespace ChainManager

variable {σ : Type} {m after : ChainManager σ}
variable {process : ChainManager σ → ChainBlock → ChainBlock → Bool × σ}

def blocksOf (m : ChainManager σ) (chain : List LinkRef) : List ChainBlock :=
  chain.map fun l => (m.links l).block

/-- The parent of a link is older, it is the block the link names, and it has been
processed. -/
def ParentsFit (m : ChainManager σ) : Prop :=
  ∀ {l p : LinkRef}, l < m.nextLink → (m.links l).parent = some p →
    p < l ∧ Follows (m.links p).block (m.links l).block ∧ (m.links p).td.isSome

/-- The walk through the parents ends on the canonical chain. -/
inductive Anchored (m : ChainManager σ) : LinkRef → Prop
  | root {l : LinkRef} : (m.links l).parent = none →
      (AList.lookup (m.links l).block.prevHash m.blocks).isSome → Anchored m l
  | child {l p : LinkRef} : (m.links l).parent = some p → Anchored m p → Anchored m l

variable {l : LinkRef} {chain before path : List LinkRef} {fuel : Nat}

theorem Anchored.mono {bound : LinkRef} (anchored : Anchored m l) (fit : ParentsFit m)
    (below : l < bound) (allocated : bound ≤ m.nextLink)
    (same : ∀ other < bound, (after.links other).parent = (m.links other).parent ∧
      (after.links other).block = (m.links other).block)
    (grown : ∀ hash, (AList.lookup hash m.blocks).isSome →
      (AList.lookup hash after.blocks).isSome) :
    Anchored after l := by
  induction anchored with
  | @root l isRoot found =>
      refine .root ((same l below).1.trans isRoot) ?_
      rw [(same l below).2]
      exact grown _ found
  | @child l p isParent _ induction =>
      have older := (fit (below.trans_le allocated) isParent).1
      exact .child ((same l below).1.trans isParent) (induction (older.trans below))

theorem Anchored.congr (anchored : Anchored m l) (linksEq : after.links = m.links)
    (blocksEq : after.blocks = m.blocks) : Anchored after l := by
  induction anchored with
  | root isRoot found =>
      refine .root (by rw [linksEq]; exact isRoot) ?_
      rw [linksEq, blocksEq]
      exact found
  | child isParent _ induction => exact .child (by rw [linksEq]; exact isParent) induction

/-- The links of the tree have been processed and lead to the canonical chain. -/
structure TreeFits (m : ChainManager σ) : Prop where
  parents : ParentsFit m
  processed {hash : Bytes} {l : LinkRef} :
    AList.lookup hash m.workingTree = some l → (m.links l).td.isSome
  anchored {hash : Bytes} {l : LinkRef} :
    AList.lookup hash m.workingTree = some l → Anchored m l

namespace TreeFits

theorem boot (genesis : ChainBlock) (processor : σ) : TreeFits (boot genesis processor) where
  parents {l _} below := absurd below (Nat.not_lt_zero l)
  processed found := absurd found (by simp [ChainManager.boot, add, writeBlockInfo])
  anchored found := absurd found (by simp [ChainManager.boot, add, writeBlockInfo])

theorem allocates (fits : TreeFits m) (recorded : Recorded m) {blocks : List ChainBlock}
    {chain : List LinkRef} (allocates : Allocates m blocks after chain) : TreeFits after where
  parents {l p} below isParent := by
    by_cases old : l < m.nextLink
    · rw [allocates.kept old] at isParent ⊢
      obtain ⟨older, follows, processed⟩ := fits.parents old isParent
      rw [allocates.kept (older.trans old)]
      exact ⟨older, follows, processed⟩
    · have blank := allocates.blank (allocates.fresh.mpr ⟨not_lt.mp old, below⟩)
      exact absurd (blank.2.symm.trans isParent) (by simp)
  processed {hash l} found := by
    rw [allocates.workingTree_eq] at found
    rw [allocates.kept (recorded.tree found).1]
    exact fits.processed found
  anchored {hash l} found := by
    rw [allocates.workingTree_eq] at found
    refine (fits.anchored found).mono fits.parents (recorded.tree found).1 le_rfl ?_ ?_
    · intro other below
      rw [allocates.kept below]
      exact ⟨rfl, rfl⟩
    · intro hash some
      rwa [allocates.blocks_kept]

theorem add (fits : TreeFits m) (recorded : Recorded m) (td : Nat) (block : ChainBlock) :
    TreeFits ((m.setTotalDifficulty td).add block) where
  parents := fits.parents
  processed := fits.processed
  anchored found := by
    refine (fits.anchored found).mono fits.parents (recorded.tree found).1 le_rfl
      (fun _ _ => ⟨rfl, rfl⟩) ?_
    intro hash some
    rw [lookup_blocks_add]
    split
    · rfl
    · exact some

theorem setHead (fits : TreeFits m) (block : ChainBlock) (hash : Bytes) :
    TreeFits (m.setHead block hash) where
  parents := fits.parents
  processed := fits.processed
  anchored found := (fits.anchored found).congr rfl rfl

theorem setWorkingChain (fits : TreeFits m) (chain : List LinkRef) :
    TreeFits (m.setWorkingChain chain) where
  parents := fits.parents
  processed := fits.processed
  anchored found := (fits.anchored found).congr rfl rfl

theorem forget (fits : TreeFits m) (path : List LinkRef) : TreeFits (m.forget path) where
  parents := fits.parents
  processed {hash l} found := by
    rw [lookup_forget] at found
    split at found
    · exact absurd found (by simp)
    · exact fits.processed found
  anchored {hash l} found := by
    rw [lookup_forget] at found
    split at found
    · exact absurd found (by simp)
    · exact (fits.anchored found).congr rfl rfl

theorem processes (fits : TreeFits m) {rest : List LinkRef} {last : Option Nat}
    (below : ∀ {hash : Bytes} {l : LinkRef}, AList.lookup hash m.workingTree = some l →
      l < m.nextLink) (processes : Processes rest m after last) : TreeFits after where
  parents {l p} allocated isParent := by
    rw [processes.touches.nextLink_eq] at allocated
    rw [processes.parent_eq] at isParent
    rw [processes.touches.block_eq, processes.touches.block_eq]
    obtain ⟨older, follows, td_isSome⟩ := fits.parents allocated isParent
    exact ⟨older, follows, processes.td_kept td_isSome⟩
  processed {hash l} found := by
    rw [processes.workingTree_eq] at found
    exact processes.td_kept (fits.processed found)
  anchored {hash l} found := by
    rw [processes.workingTree_eq] at found
    refine (fits.anchored found).mono fits.parents (below found) le_rfl ?_ ?_
    · intro other _
      exact ⟨processes.parent_eq other, processes.touches.block_eq other⟩
    · intro hash some
      rwa [processes.touches.blocks_eq]

end TreeFits

/-! ### Joining the tree -/

/-- What `attachment` returns. -/
theorem attachment_cases {block : ChainBlock} {parent : Option LinkRef} {base : Nat}
    (attached : m.attachment before block = some (some (parent, base))) :
    (∃ f td, before.getLast? = some f ∧ (m.links f).td = some td ∧ parent = some f ∧
        base = td + block.difficulty) ∨
      (before = [] ∧ ∃ p td, AList.lookup block.prevHash m.workingTree = some p ∧
        (m.links p).td = some td ∧ parent = some p ∧ base = td + block.difficulty) ∨
      (before = [] ∧ AList.lookup block.prevHash m.workingTree = none ∧ parent = none ∧
        ∃ b, AList.lookup block.prevHash m.blocks = some b ∧
          base = m.recordedTD b.hash + b.difficulty) := by
  unfold attachment at attached
  split at attached
  · rename_i f lastEq
    obtain ⟨td, tdEq, eq⟩ := Option.bind_eq_some_iff.mp attached
    obtain ⟨rfl, rfl⟩ := by simpa using eq
    exact .inl ⟨f, td, lastEq, tdEq, rfl, rfl⟩
  · rename_i lastEq
    have beforeEq := List.getLast?_eq_none_iff.mp lastEq
    split at attached
    · rename_i p found
      obtain ⟨td, tdEq, eq⟩ := Option.bind_eq_some_iff.mp attached
      obtain ⟨rfl, rfl⟩ := by simpa using eq
      exact .inr (.inl ⟨beforeEq, p, td, found, tdEq, rfl, rfl⟩)
    · rename_i absent
      split at attached
      · exact absurd attached (by simp)
      · rename_i b canonical
        obtain ⟨rfl, rfl⟩ := by simpa using attached
        exact .inr (.inr ⟨beforeEq, absent, rfl, b, canonical, rfl⟩)

/-- The chain while its links join the tree: those in `before` have joined, those in
`rest` have not. -/
structure Joining (m : ChainManager σ) (before rest : List LinkRef) : Prop where
  fits : TreeFits m
  tree {hash : Bytes} {l : LinkRef} : AList.lookup hash m.workingTree = some l →
    (m.links l).block.hash = hash ∧ ∀ next ∈ rest, l < next
  below : ∀ l ∈ before ++ rest, l < m.nextLink
  ascending : (before ++ rest).Pairwise (· < ·)
  linked : HashLinked (m.blocksOf (before ++ rest))
  joined : ∀ l ∈ before, (m.links l).td.isSome ∧ Anchored m l

theorem td_joinLink_isSome {other : LinkRef} {parent : Option LinkRef} {base : Nat}
    (some : (m.links other).td.isSome) :
    ((m.joinLink before l parent base).links other).td.isSome := by
  rw [links_joinLink]
  dsimp only
  split
  · rfl
  · exact some

namespace Joining

variable {before rest : List LinkRef} {l : LinkRef} {parent : Option LinkRef} {base : Nat}

theorem last_lt (joining : Joining m before (l :: rest)) : ∀ f ∈ before, f < l := by
  intro f member
  exact (List.pairwise_append.mp joining.ascending).2.2 f member l List.mem_cons_self

theorem anchored_joinLink (joining : Joining m before (l :: rest)) {other : LinkRef}
    (older : other < l) (anchored : Anchored m other) :
    Anchored (m.joinLink before l parent base) other := by
  refine anchored.mono joining.fits.parents older (joining.below l (by simp)).le ?_ fun _ => id
  intro link linkOlder
  rw [links_joinLink]
  exact ⟨if_neg linkOlder.ne, rfl⟩

theorem step (joining : Joining m before (l :: rest))
    (attached : m.attachment before (m.links l).block = some (some (parent, base))) :
    Joining (m.joinLink before l parent base) (before ++ [l]) rest := by
  have below : l < m.nextLink := joining.below l (by simp)
  have ownAnchored : Anchored (m.joinLink before l parent base) l := by
    rcases attachment_cases attached with ⟨f, td, lastEq, -, rfl, -⟩ |
      ⟨-, p, td, found, -, rfl, -⟩ | ⟨-, -, rfl, b, canonical, -⟩
    · have member := List.mem_of_getLast? lastEq
      refine .child (p := f) (by rw [links_joinLink]; exact if_pos rfl) ?_
      exact joining.anchored_joinLink (joining.last_lt f member) (joining.joined f member).2
    · refine .child (p := p) (by rw [links_joinLink]; exact if_pos rfl) ?_
      have older := (joining.tree found).2 l List.mem_cons_self
      exact joining.anchored_joinLink older (joining.fits.anchored found)
    · refine .root (by rw [links_joinLink]; exact if_pos rfl) ?_
      rw [links_joinLink]
      exact Option.isSome_of_eq_some canonical
  have ownParent : ∀ {p}, parent = some p → p < l ∧ Follows (m.links p).block (m.links l).block ∧
      (m.links p).td.isSome := by
    intro p parentEq
    rcases attachment_cases attached with ⟨f, td, lastEq, tdEq, isParent, -⟩ |
      ⟨-, q, td, found, tdEq, isParent, -⟩ | ⟨-, -, isRoot, -⟩
    · obtain rfl : f = p := Option.some.inj (isParent.symm.trans parentEq)
      refine ⟨joining.last_lt f (List.mem_of_getLast? lastEq), ?_, Option.isSome_of_eq_some tdEq⟩
      have linked := joining.linked
      rw [blocksOf, List.map_append] at linked
      refine (List.isChain_append.mp linked).2.2 _ ?_ _ rfl
      rw [List.getLast?_map, lastEq]
      rfl
    · obtain rfl : q = p := Option.some.inj (isParent.symm.trans parentEq)
      obtain ⟨hashEq, older⟩ := joining.tree found
      exact ⟨older l List.mem_cons_self, hashEq.symm, Option.isSome_of_eq_some tdEq⟩
    · exact absurd (isRoot.symm.trans parentEq) (by simp)
  constructor
  case fits =>
    constructor
    case parents =>
      intro other p otherBelow isParent
      have blocks : ∀ link, ((m.joinLink before l parent base).links link).block =
          (m.links link).block := (Touches.joinLink m before l parent base).block_eq
      rw [blocks, blocks]
      rw [links_joinLink] at isParent
      dsimp only at isParent
      split at isParent
      · rename_i same
        subst same
        obtain ⟨older, follows, processed⟩ := ownParent isParent
        exact ⟨older, follows, td_joinLink_isSome processed⟩
      · obtain ⟨older, follows, processed⟩ := joining.fits.parents otherBelow isParent
        exact ⟨older, follows, td_joinLink_isSome processed⟩
    case processed =>
      intro hash link found
      rw [lookup_joinLink] at found
      split at found
      · cases found
        rw [links_joinLink]
        simp
      · exact td_joinLink_isSome (joining.fits.processed found)
    case anchored =>
      intro hash link found
      rw [lookup_joinLink] at found
      split at found
      · cases found
        exact ownAnchored
      · have older := (joining.tree found).2 l List.mem_cons_self
        exact joining.anchored_joinLink older (joining.fits.anchored found)
  case tree =>
    intro hash link found
    rw [lookup_joinLink] at found
    rw [(Touches.joinLink m before l parent base).block_eq]
    split at found
    · rename_i same
      cases found
      refine ⟨same.symm, fun next member => ?_⟩
      have ascending := (List.pairwise_append.mp joining.ascending).2.1
      exact (List.pairwise_cons.mp ascending).1 next member
    · obtain ⟨hashEq, older⟩ := joining.tree found
      exact ⟨hashEq, fun next member => older next (List.mem_cons_of_mem _ member)⟩
  case below =>
    intro link member
    exact joining.below link (by simpa using member)
  case ascending =>
    rw [List.append_assoc]
    exact joining.ascending
  case linked =>
    have blocksEq : (m.joinLink before l parent base).blocksOf (before ++ [l] ++ rest) =
        m.blocksOf (before ++ l :: rest) := by
      rw [List.append_assoc, List.singleton_append]
      exact List.map_congr_left fun link _ =>
        (Touches.joinLink m before l parent base).block_eq link
    rw [blocksEq]
    exact joining.linked
  case joined =>
    intro link member
    rcases List.mem_append.mp member with member | member
    · obtain ⟨processed, anchored⟩ := joining.joined link member
      exact ⟨td_joinLink_isSome processed,
        joining.anchored_joinLink (joining.last_lt link member) anchored⟩
    · obtain rfl := List.mem_singleton.mp member
      rw [links_joinLink]
      exact ⟨by simp, ownAnchored⟩

end Joining

theorem fits_joinTree {rest left : List LinkRef} (joining : Joining m before rest)
    (joined : m.joinTree before rest = some (after, left)) : TreeFits after := by
  induction rest generalizing m before with
  | nil =>
      cases joined
      exact joining.fits
  | cons l rest induction =>
      rcases joinTree_cons joined with ⟨-, rfl, -⟩ | ⟨-, ⟨-, rfl, -⟩ | ⟨_, _, attached, joined⟩⟩
      · exact joining.fits
      · exact joining.fits
      · exact induction (joining.step attached) joined

/-- The links of a chain about to be tested: they are newer than those of the tree. -/
structure Fresh (m : ChainManager σ) (chain : List LinkRef) : Prop where
  ascending : chain.Pairwise (· < ·)
  below : ∀ l ∈ chain, l < m.nextLink
  aboveTree {hash : Bytes} {l : LinkRef} : AList.lookup hash m.workingTree = some l →
    ∀ next ∈ chain, l < next

theorem Fresh.nodup (fresh : Fresh m chain) : chain.Nodup :=
  fresh.ascending.imp fun below => below.ne

theorem Fresh.setHead (fresh : Fresh m chain) (block : ChainBlock) (hash : Bytes) :
    Fresh (m.setHead block hash) chain :=
  ⟨fresh.ascending, fresh.below, fresh.aboveTree⟩

theorem Allocates.isFresh {blocks : List ChainBlock} (allocates : Allocates m blocks after chain)
    (recorded : Recorded m) : Fresh after chain where
  ascending := allocates.ascending
  below l member := (allocates.fresh.mp member).2
  aboveTree {hash l} found next member := by
    rw [allocates.workingTree_eq] at found
    exact (recorded.tree found).1.trans_le (allocates.fresh.mp member).1

theorem TreeFits.testChain (fits : TreeFits m) (recorded : Recorded m) {left : List LinkRef}
    {verdict : Verdict} (fresh : Fresh m chain) (linked : HashLinked (m.blocksOf chain))
    (tested : m.testChain process chain = some (after, left, verdict)) : TreeFits after := by
  obtain ⟨front, processed, last, -, processedEq, outcome⟩ := testChain_cases tested
  have processes := processes_processChain processedEq fresh.nodup
  have processedFits : TreeFits processed :=
    (fits.setWorkingChain chain).processes (fun found => (recorded.tree found).1) processes
  rcases outcome with ⟨-, -, -, rfl⟩ | ⟨td, joined, -, -, rfl, joinedEq⟩
  · exact processedFits.setWorkingChain []
  · refine TreeFits.setWorkingChain ?_ []
    unfold recordFork at joinedEq
    split at joinedEq
    · have joining : Joining processed [] chain := by
        refine ⟨processedFits, ?_, ?_, fresh.ascending, ?_, ?_⟩
        · intro hash l found
          rw [processes.workingTree_eq] at found
          rw [processes.touches.block_eq]
          exact ⟨(recorded.tree found).2, fresh.aboveTree found⟩
        · intro l member
          rw [processes.touches.nextLink_eq]
          exact fresh.below l member
        · have blocksEq : processed.blocksOf ([] ++ chain) = m.blocksOf chain :=
            List.map_congr_left fun l _ => processes.touches.block_eq l
          rw [blocksEq]
          exact linked
        · exact fun l member => absurd member List.not_mem_nil
      exact fits_joinTree joining joinedEq
    · cases joinedEq
      exact processedFits

/-! ### The way back to the canonical chain -/

/-- The walk from a link through the parents. -/
structure Leads (m : ChainManager σ) (l : LinkRef) (path : List LinkRef) : Prop where
  last : path.getLast? = some l
  below : ∀ other ∈ path, other < m.nextLink
  linked : HashLinked (m.blocksOf path)

theorem TreeFits.leads (fits : TreeFits m) (allocated : l < m.nextLink)
    (walked : m.lineage fuel l = some path) : Leads m l path := by
  have isPath := ParentForest.isPath_of_pathTo walked
  have below : ∀ other ∈ path, other < m.nextLink := by
    intro other member
    refine (isPath.le_of_mem ?_ allocated other member).trans_lt allocated
    intro node up nodeBelow isParent
    exact (fits.parents nodeBelow isParent).1
  refine ⟨isPath.last, below, ?_⟩
  rw [blocksOf, HashLinked, List.isChain_map]
  refine isPath.linked.imp_of_mem_imp ?_
  intro up down _ member isParent
  exact (fits.parents (below down member) isParent).2.1

theorem TreeFits.processed_lineage (fits : TreeFits m)
    (isPath : ParentForest.IsPath (fun l => (m.links l).parent) l path) (allocated : l < m.nextLink)
    (processed : (m.links l).td.isSome) : ∀ other ∈ path, (m.links other).td.isSome := by
  induction path using List.reverseRecOn generalizing l with
  | nil => exact fun _ member => absurd member List.not_mem_nil
  | append_singleton before last induction =>
      rcases isPath.cases_parent with ⟨pathEq, -⟩ | ⟨up, init, pathEq, isParent, upPath⟩
      · intro other member
        rw [pathEq] at member
        exact List.mem_singleton.mp member ▸ processed
      · obtain ⟨rfl, lastEq⟩ := List.append_inj' pathEq rfl
        obtain ⟨older, -, upProcessed⟩ := fits.parents allocated isParent
        intro other member
        rcases List.mem_append.mp member with member | member
        · exact induction upPath (older.trans allocated) upProcessed other member
        · rw [lastEq] at member
          exact List.mem_singleton.mp member ▸ processed

theorem TreeFits.exists_lineage (fits : TreeFits m) (allocated : l < m.nextLink) :
    ∃ path, m.lineage m.nextLink l = some path :=
  ParentForest.exists_pathTo (fun below isParent => (fits.parents below isParent).1)
    allocated allocated

theorem Anchored.root_of_lineage {root : LinkRef} (anchored : Anchored m l)
    (walked : m.lineage fuel l = some path) (rootEq : path.head? = some root) :
    (AList.lookup (m.links root).block.prevHash m.blocks).isSome := by
  induction anchored generalizing fuel path with
  | @root l isRoot found =>
      cases fuel with
      | zero => cases walked
      | succ fuel =>
          rw [lineage, ParentForest.pathTo, isRoot] at walked
          cases walked
          cases rootEq
          exact found
  | @child l p isParent anchored induction =>
      cases fuel with
      | zero => cases walked
      | succ fuel =>
          rw [lineage, ParentForest.pathTo, isParent] at walked
          obtain ⟨before, walkedUp, eq⟩ := Option.bind_eq_some_iff.mp walked
          cases eq
          have nonempty : before ≠ [] := by
            have last := (ParentForest.isPath_of_pathTo walkedUp).last
            exact fun empty => absurd (empty ▸ last) (by simp)
          rw [List.head?_append_of_ne_nil _ nonempty] at rootEq
          exact induction walkedUp rootEq

/-- The blocks above an ancestor up to `b`. -/
structure Between (ancestorHash : Bytes) (b : ChainBlock) (blocks : List ChainBlock) : Prop where
  linked : HashLinked blocks
  last : blocks.getLast? = if b.hash = ancestorHash then none else some b
  first : ∀ first ∈ blocks.head?, first.prevHash = ancestorHash

theorem between_blocksAbove (recorded : Recorded m) {ancestorHash : Bytes} {b : ChainBlock}
    {blocks : List ChainBlock} (walked : m.blocksAbove ancestorHash fuel b = some blocks) :
    Between ancestorHash b blocks := by
  induction fuel generalizing b blocks with
  | zero => cases walked
  | succ fuel induction =>
      rw [blocksAbove] at walked
      split at walked
      · rename_i arrived
        cases walked
        exact ⟨.nil, (if_pos arrived).symm, fun first member => absurd member (by simp)⟩
      · rename_i away
        obtain ⟨parent, parentEq, walked⟩ := Option.bind_eq_some_iff.mp walked
        obtain ⟨before, walkedUp, eq⟩ := Option.bind_eq_some_iff.mp walked
        cases eq
        have between := induction walkedUp
        have parentHash : parent.hash = b.prevHash := recorded.hash_of_getBlock parentEq
        refine ⟨between.linked.append (.singleton b) ?_, by simp [away], ?_⟩
        · intro up upEq down downEq
          obtain rfl : b = down := Option.some.inj downEq
          rw [between.last] at upEq
          split at upEq
          · exact absurd upEq (by simp)
          · obtain rfl : parent = up := Option.some.inj upEq
            exact parentHash.symm
        · intro first firstEq
          cases before with
          | nil =>
              obtain rfl : b = first := Option.some.inj firstEq
              by_cases arrived : parent.hash = ancestorHash
              · exact parentHash.symm.trans arrived
              · have last := between.last
                rw [if_neg arrived] at last
                exact absurd last (by simp)
          | cons head before => exact between.first first firstEq

end ChainManager

end Thelonious
