import Thelonious.Chain.TotalDifficulty

/-!
# What is recorded is exact

Testing a chain gives each of its blocks a total difficulty, from the record of its
parent, the parent's link in the working tree, or its link in the chain.  Only the
links of the tree can be wrong, so a chain on top of a canonical block is exact
when none of its blocks is in the tree.
-/

namespace Thelonious

namespace ChainManager

variable {σ : Type} {m start after : ChainManager σ} {tree : BlockTree}
variable {process : ChainManager σ → ChainBlock → ChainBlock → Bool × σ}

/-- The manager while it tests a chain in the state `start`. -/
structure Processing (tree : BlockTree) (start m : ChainManager σ) : Prop where
  sound : Sound tree start
  blocks_eq : m.blocks = start.blocks
  infos_eq : m.infos = start.infos
  workingTree_eq : m.workingTree = start.workingTree
  nextLink_eq : m.nextLink = start.nextLink
  block_eq (l : LinkRef) : (m.links l).block = (start.links l).block
  td_kept {l : LinkRef} : (start.links l).td.isSome → (m.links l).td.isSome
  working : ∀ l ∈ m.workingChain, l < start.nextLink

namespace Processing

theorem setWorkingChain (sound : Sound tree m) {chain : List LinkRef}
    (below : ∀ l ∈ chain, l < m.nextLink) : Processing tree m (m.setWorkingChain chain) :=
  ⟨sound, rfl, rfl, rfl, rfl, fun _ => rfl, id, below⟩

theorem setTd (processing : Processing tree start m) (processor : σ) (td : Nat) (l : LinkRef) :
    Processing tree start ((m.setProcessor processor).setTd td l) := by
  have processes := processes_setTd m processor td l
  constructor
  case sound => exact processing.sound
  case blocks_eq => exact processing.blocks_eq
  case infos_eq => exact processing.infos_eq
  case workingTree_eq => exact processing.workingTree_eq
  case nextLink_eq => exact processing.nextLink_eq
  case block_eq =>
    exact fun other => (processes.touches.block_eq other).trans (processing.block_eq other)
  case td_kept => exact fun some => processes.td_kept (processing.td_kept some)
  case working => exact processing.working

variable {block : ChainBlock}

/-- A block found is in the database, in the tree or in the chain, under its hash. -/
theorem getBlock_cases (processing : Processing tree start m) {hash : Bytes}
    (found : m.getBlock hash = some block) :
    block.hash = hash ∧
      (AList.lookup hash start.blocks = some block ∨
        AList.lookup hash start.blocks = none ∧
          ((∃ l, AList.lookup hash start.workingTree = some l ∧ block = (start.links l).block) ∨
            AList.lookup hash start.workingTree = none ∧
              ∃ l, m.findWorking hash = some l ∧ block = (start.links l).block)) := by
  have recorded := processing.sound.recorded
  rw [getBlock, getBlockCanonical, processing.blocks_eq] at found
  split at found
  · rename_i canonical
    cases found
    exact ⟨recorded.named canonical, .inl canonical⟩
  · rename_i absent
    rw [getBlockWorking, processing.workingTree_eq] at found
    split at found
    · rename_i l inTree
      rw [processing.block_eq] at found
      cases found
      exact ⟨(recorded.tree inTree).2, .inr ⟨absent, .inl ⟨l, inTree, rfl⟩⟩⟩
    · rename_i outside
      obtain ⟨l, foundWorking, blockEq⟩ := Option.map_eq_some_iff.mp found
      rw [processing.block_eq] at blockEq
      refine ⟨?_, .inr ⟨absent, .inr ⟨outside, l, foundWorking, blockEq.symm⟩⟩⟩
      have hashEq := List.find?_some foundWorking
      rw [← blockEq, ← processing.block_eq]
      simpa using hashEq

/-- The total difficulty of a found block: the exact one for a block of the database, and
otherwise the one of its link. -/
theorem blockInfoTD_cases (processing : Processing tree start m) {hash : Bytes}
    (found : m.getBlock hash = some block) :
    ((AList.lookup hash start.blocks).isSome ∧
        ∃ path, tree.Descends hash path ∧ m.blockInfoTD hash = some (tree.total path)) ∨
      AList.lookup hash start.blocks = none ∧
        ((∃ l, AList.lookup hash start.workingTree = some l ∧
            m.blockInfoTD hash = (m.links l).td) ∨
          AList.lookup hash start.workingTree = none ∧
            ∃ l, m.findWorking hash = some l ∧ m.blockInfoTD hash = (m.links l).td) := by
  have sound := processing.sound
  rw [blockInfoTD, processing.infos_eq, processing.workingTree_eq]
  obtain ⟨-, canonical | ⟨absent, outcome⟩⟩ := processing.getBlock_cases found
  · obtain ⟨info, infoEq⟩ := Option.isSome_iff_exists.mp
      (sound.informed (Option.isSome_of_eq_some canonical))
    obtain ⟨-, path, descends, tdEq⟩ := sound.exactly infoEq
    exact .inl ⟨Option.isSome_of_eq_some canonical, path, descends, by rw [infoEq, ← tdEq]⟩
  · have noInfo : AList.lookup hash start.infos = none := by
      by_contra some
      obtain ⟨info, infoEq⟩ := Option.ne_none_iff_exists'.mp some
      have stored := (sound.exactly infoEq).1
      rw [absent] at stored
      exact absurd stored (by simp)
    rw [noInfo]
    refine .inr ⟨absent, ?_⟩
    rcases outcome with ⟨l, inTree, -⟩ | ⟨outside, l, foundWorking, -⟩
    · exact .inl ⟨l, inTree, by rw [inTree]⟩
    · exact .inr ⟨outside, l, foundWorking, by rw [outside, foundWorking]⟩

/-- `CalcTotalDiff` adds to the total difficulty of the parent. -/
theorem calcTotalDiff_cases (processing : Processing tree start m) {td : Nat}
    (calculated : m.calcTotalDiff block = some td) :
    ∃ parent parentTd, m.getBlock block.prevHash = some parent ∧
      m.blockInfoTD block.prevHash = some parentTd ∧ td = parentTd + block.weight := by
  obtain ⟨parent, parentEq, calculated⟩ := Option.bind_eq_some_iff.mp calculated
  obtain ⟨parentTd, parentTdEq, eq⟩ := Option.bind_eq_some_iff.mp calculated
  rw [(processing.getBlock_cases parentEq).1] at parentTdEq
  exact ⟨parent, parentTd, parentEq, parentTdEq, (Option.some.inj eq).symm⟩

end Processing

/-! ### Processed links lead on from genesis -/

/-- Every link with a total difficulty has been accepted and leads on from genesis. -/
def Grounded (tree : BlockTree) (m : ChainManager σ) : Prop :=
  ∀ {l : LinkRef}, l < m.nextLink → (m.links l).td.isSome →
    tree.accepted (m.links l).block ∧ ∃ path, tree.Descends (m.links l).block.hash path

variable {rest before : List LinkRef} {l : LinkRef} {td : Nat}

theorem hash_of_findWorking {hash : Bytes} (found : m.findWorking hash = some l) :
    l ∈ m.workingChain ∧ (m.links l).block.hash = hash := by
  have hashEq := List.find?_some found
  exact ⟨List.mem_of_find?_eq_some found, by simpa using hashEq⟩

theorem Grounded.descends_parent (grounded : Grounded tree m) (processing : Processing tree start m)
    {block : ChainBlock} (calculated : m.calcTotalDiff block = some td) :
    ∃ path, tree.Descends block.prevHash path := by
  obtain ⟨parent, parentTd, parentEq, parentTdEq, -⟩ := processing.calcTotalDiff_cases calculated
  rcases processing.blockInfoTD_cases parentEq with ⟨-, path, descends, -⟩ |
    ⟨-, ⟨l, inTree, tdEq⟩ | ⟨-, l, found, tdEq⟩⟩
  · exact ⟨path, descends⟩
  · obtain ⟨below, hashEq⟩ := processing.sound.recorded.tree inTree
    rw [← hashEq, ← processing.block_eq]
    refine (grounded (processing.nextLink_eq ▸ below) ?_).2
    rw [← tdEq, parentTdEq]
    rfl
  · obtain ⟨member, hashEq⟩ := hash_of_findWorking found
    rw [← hashEq]
    refine (grounded (processing.nextLink_eq ▸ processing.working l member) ?_).2
    rw [← tdEq, parentTdEq]
    rfl

theorem grounded_processChain (judges : Judges process tree) {last : Option Nat}
    (processing : Processing tree start m) (grounded : Grounded tree m)
    (below : ∀ l ∈ rest, l < m.nextLink)
    (processed : m.processChain process td rest = some (after, last)) : Grounded tree after := by
  induction rest generalizing m td with
  | nil =>
      cases processed
      exact grounded
  | cons l rest induction =>
      rcases processChain_cons processed with ⟨-, rfl, -⟩ | ⟨parent, processor, -, ⟨-, rfl, -⟩ |
        ⟨own, accepts, calculated, processed⟩⟩
      · exact grounded
      · exact grounded
      · refine induction (processing.setTd processor own l) ?_
          (fun other member => below other (List.mem_cons_of_mem _ member)) processed
        intro other otherBelow some
        by_cases same : other = l
        · obtain ⟨path, descends⟩ := grounded.descends_parent processing calculated
          have contained : tree.Contains (m.links l).block := by
            rw [processing.block_eq]
            exact processing.sound.link (processing.nextLink_eq ▸ below l List.mem_cons_self)
          rw [same, links_setTd_self]
          exact ⟨judges (congrArg Prod.fst accepts), _, contained.descends descends⟩
        · rw [links_setTd_of_ne same] at some ⊢
          exact grounded otherBelow some

theorem Sound.testChain (sound : Sound tree m) (judges : Judges process tree)
    {chain left : List LinkRef} {verdict : Verdict} (fresh : Fresh m chain)
    (linked : HashLinked (m.blocksOf chain))
    (tested : m.testChain process chain = some (after, left, verdict)) : Sound tree after := by
  have touches := (touches_testChain tested fresh.nodup).1
  refine sound.of_store_eq (sound.recorded.testChain tested fresh.nodup fresh.below)
    (sound.fits.testChain sound.recorded fresh linked tested)
    touches.blocks_eq touches.infos_eq ?_ ?_
  · intro l below
    rw [touches.block_eq]
    exact sound.link (touches.nextLink_eq ▸ below)
  · intro l below some
    rw [touches.nextLink_eq] at below
    obtain ⟨front, processed, last, -, processedEq, outcome⟩ := testChain_cases tested
    have processes := processes_processChain processedEq fresh.nodup
    have grounded : Grounded tree processed :=
      grounded_processChain judges (.setWorkingChain sound fresh.below) sound.processed fresh.below
        processedEq
    have blockEq : (processed.links l).block = (m.links l).block := processes.touches.block_eq l
    have processedBelow : l < processed.nextLink := by
      rw [processes.touches.nextLink_eq]
      exact below
    rw [touches.block_eq, ← blockEq]
    apply grounded processedBelow
    rcases outcome with ⟨-, -, -, rfl⟩ | ⟨td, joined, rfl, -, rfl, joinedEq⟩
    · exact some
    · by_cases member : l ∈ chain
      · exact processes.td_isSome rfl member
      · unfold recordFork at joinedEq
        split at joinedEq
        · have joinedLink : joined.links l = processed.links l :=
            (touches_joinTree joinedEq).1.links_eq member
          rw [← joinedLink]
          exact some
        · cases joinedEq
          exact some

/-! ### Chains on top of a canonical block -/

/-- In a hash-linked chain the parent of a link is the link before it. -/
theorem prev_mem (linked : HashLinked (m.blocksOf (before ++ l :: rest))) :
    before = [] ∨ ∃ f ∈ before, (m.links l).block.prevHash = (m.links f).block.hash := by
  rcases List.eq_nil_or_concat before with rfl | ⟨init, f, rfl⟩
  · exact .inl rfl
  · refine .inr ⟨f, by simp, ?_⟩
    rw [List.concat_eq_append, blocksOf, List.map_append] at linked
    exact (List.isChain_append.mp linked).2.2 _ (by simp) _ rfl

theorem findWorking_mem {f : LinkRef} {hash : Bytes} (chainEq : m.workingChain = before ++ rest)
    (member : f ∈ before) (hashEq : (m.links f).block.hash = hash)
    (found : m.findWorking hash = some l) : l ∈ before := by
  rw [findWorking, chainEq, List.find?_append] at found
  cases inside : before.find? fun l => decide ((m.links l).block.hash = hash) with
  | none =>
      have missing := List.find?_eq_none.mp inside f member
      exact absurd hashEq (by simpa using missing)
  | some other =>
      rw [inside] at found
      cases found
      exact List.mem_of_find?_eq_some inside

/-- The chain in `start` stands on a canonical block, and none of its blocks is in the
tree. -/
structure Grafted (start : ChainManager σ) (chain : List LinkRef) : Prop where
  nodup : chain.Nodup
  below : ∀ l ∈ chain, l < start.nextLink
  linked : HashLinked (start.blocksOf chain)
  absent : ∀ l ∈ chain, AList.lookup (start.links l).block.hash start.workingTree = none
  first : ∀ l ∈ chain.head?, (AList.lookup (start.links l).block.prevHash start.blocks).isSome

theorem exact_parent (grafted : Grafted start (before ++ l :: rest))
    (processing : Processing tree start m) (chainEq : m.workingChain = before ++ l :: rest)
    (done : ∀ f ∈ before, Exact tree m f)
    (calculated : m.calcTotalDiff (start.links l).block = some td) :
    ∃ path, tree.Descends (start.links l).block.prevHash path ∧
      td = tree.total path + (start.links l).block.weight := by
  obtain ⟨parent, parentTd, parentEq, parentTdEq, rfl⟩ :=
    processing.calcTotalDiff_cases calculated
  rcases processing.blockInfoTD_cases parentEq with ⟨-, path, descends, tdEq⟩ | ⟨absent, outcome⟩
  · exact ⟨path, descends, by rw [Option.some.inj (parentTdEq.symm.trans tdEq)]⟩
  · have prev : ∃ f ∈ before, (start.links l).block.prevHash = (start.links f).block.hash := by
      rcases prev_mem grafted.linked with rfl | prev
      · have canonical := grafted.first l rfl
        rw [absent] at canonical
        exact absurd canonical (by simp)
      · exact prev
    obtain ⟨f, member, hashEq⟩ := prev
    rcases outcome with ⟨_, inTree, -⟩ | ⟨-, other, found, tdEq⟩
    · have outside := grafted.absent f (by simp [member])
      rw [hashEq, outside] at inTree
      exact absurd inTree (by simp)
    · have otherMember : other ∈ before :=
        findWorking_mem chainEq member ((congrArg _ (processing.block_eq f)).trans hashEq.symm)
          found
      obtain ⟨path, descends, exactTd⟩ := done other otherMember
      rw [(hash_of_findWorking found).2] at descends
      refine ⟨path, descends, ?_⟩
      rw [exactTd, parentTdEq] at tdEq
      rw [Option.some.inj tdEq]

theorem exact_processChain {last : Nat} (grafted : Grafted start (before ++ rest))
    (processing : Processing tree start m) (chainEq : m.workingChain = before ++ rest)
    (done : ∀ f ∈ before, Exact tree m f)
    (processed : m.processChain process td rest = some (after, some last)) :
    ∀ l ∈ before ++ rest, Exact tree after l := by
  induction rest generalizing m before td with
  | nil =>
      cases processed
      simpa using done
  | cons l rest induction =>
      rcases processChain_cons processed with ⟨-, -, failed⟩ |
        ⟨parent, processor, -, ⟨-, -, failed⟩ |
        ⟨own, -, calculated, processed⟩⟩
      · exact absurd failed (by simp)
      · exact absurd failed (by simp)
      · have listEq : before ++ l :: rest = before ++ [l] ++ rest := by simp
        rw [processing.block_eq] at calculated
        obtain ⟨path, descends, ownEq⟩ :=
          exact_parent grafted processing chainEq done calculated
        rw [listEq] at grafted chainEq ⊢
        refine induction grafted (processing.setTd processor own l) chainEq ?_ processed
        intro f member
        rcases List.mem_append.mp member with early | member
        · have different : f ≠ l := by
            rintro rfl
            have nodup := grafted.nodup
            rw [← listEq] at nodup
            exact (List.nodup_append.mp nodup).2.2 f early f List.mem_cons_self rfl
          rw [Exact, links_setTd_of_ne different]
          exact done f early
        · have contained := processing.sound.link (grafted.below l (by simp))
          rw [List.mem_singleton.mp member, Exact, links_setTd_self]
          dsimp only
          change ∃ path, tree.Descends (m.links l).block.hash path ∧ _
          rw [processing.block_eq]
          refine ⟨path ++ [(start.links l).block.hash], contained.descends descends, ?_⟩
          rw [BlockTree.total_append, contained.total_hash, ownEq]

/-! ### Inserting and reorganising -/

/-- A chain of blocks that the tree does not have is left whole. -/
theorem left_joinTree {left : List LinkRef}
    (absent : ∀ l ∈ rest, AList.lookup (m.links l).block.hash m.workingTree = none)
    (nodup : ((m.blocksOf rest).map ChainBlock.hash).Nodup)
    (joined : m.joinTree before rest = some (after, left)) : left = before ++ rest := by
  induction rest generalizing m before with
  | nil =>
      cases joined
      simp
  | cons l rest induction =>
      obtain ⟨new, nodup⟩ := List.nodup_cons.mp nodup
      rcases joinTree_cons joined with ⟨seen, -, -⟩ | ⟨-, ⟨-, -, rfl⟩ | ⟨parent, base, -, joined⟩⟩
      · rw [absent l List.mem_cons_self] at seen
        exact absurd seen (by simp)
      · rfl
      · have blocksEq : (m.joinLink before l parent base).blocksOf rest = m.blocksOf rest :=
          List.map_congr_left
            fun other _ => (Touches.joinLink m before l parent base).block_eq other
        rw [induction ?_ (blocksEq ▸ nodup) joined]
        · simp
        · intro other member
          rw [lookup_joinLink, (Touches.joinLink m before l parent base).block_eq, if_neg ?_]
          · exact absent other (List.mem_cons_of_mem _ member)
          · intro same
            exact new (same ▸ List.mem_map_of_mem (List.mem_map_of_mem member))

namespace Sound

theorem getBlock_cases (sound : Sound tree m) {hash : Bytes} {b : ChainBlock}
    (found : m.getBlock hash = some b) : b.hash = hash ∧ (b = tree.genesis ∨ tree.Contains b) := by
  have processing : Processing tree m m := by
    refine ⟨sound, rfl, rfl, rfl, rfl, fun _ => rfl, id, fun l member => ?_⟩
    rw [sound.recorded.idle] at member
    exact absurd member List.not_mem_nil
  obtain ⟨hashEq, canonical | ⟨-, ⟨l, inTree, rfl⟩ | ⟨-, l, working, -⟩⟩⟩ :=
    processing.getBlock_cases found
  · exact ⟨hashEq, sound.stored canonical⟩
  · exact ⟨hashEq, .inr (sound.link (sound.recorded.tree inTree).1)⟩
  · have member := (hash_of_findWorking working).1
    rw [sound.recorded.idle] at member
    exact absurd member List.not_mem_nil

/-- Nothing comes before genesis. -/
theorem getBlock_before (sound : Sound tree m) : m.getBlock tree.genesis.prevHash = none := by
  by_contra some
  obtain ⟨b, found⟩ := Option.ne_none_iff_exists'.mp some
  obtain ⟨hashEq, rfl | contained⟩ := sound.getBlock_cases found
  · exact tree.prevHash_ne hashEq.symm
  · exact contained.ne_before hashEq

theorem contains_blocksAbove (sound : Sound tree m) {ancestorHash : Bytes} {fuel : Nat}
    {b : ChainBlock} {blocks : List ChainBlock} (known : b = tree.genesis ∨ tree.Contains b)
    (walked : m.blocksAbove ancestorHash fuel b = some blocks) :
    ∀ other ∈ blocks, tree.Contains other := by
  induction fuel generalizing b blocks with
  | zero => cases walked
  | succ fuel induction =>
      rw [blocksAbove] at walked
      split at walked
      · cases walked
        exact fun other member => absurd member List.not_mem_nil
      · obtain ⟨parent, parentEq, walked⟩ := Option.bind_eq_some_iff.mp walked
        obtain ⟨before, walkedUp, eq⟩ := Option.bind_eq_some_iff.mp walked
        cases eq
        have contained : tree.Contains b := by
          rcases known with rfl | contained
          · rw [sound.getBlock_before] at parentEq
            exact absurd parentEq (by simp)
          · exact contained
        intro other member
        rcases List.mem_append.mp member with member | member
        · exact induction (sound.getBlock_cases parentEq).2 walkedUp other member
        · exact List.mem_singleton.mp member ▸ contained

end Sound

end ChainManager

end Thelonious
