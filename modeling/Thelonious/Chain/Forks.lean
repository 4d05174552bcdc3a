import Thelonious.Chain.Definedness

/-!
# Forks

The blocks of a fork join the working tree under their parent, and all get one
total difficulty: that of the last of them, as it is summed up on the way.  A
reorganisation walks from the last of them back to the canonical chain.
-/

namespace Thelonious

namespace ChainManager

variable {σ : Type} {m start after : ChainManager σ} {tree : BlockTree}
variable {process : ChainManager σ → ChainBlock → ChainBlock → Bool × σ}

/-! ### The links of a fork -/

/-- The links of `chain` have joined the tree of `start` under `parent`, and share the
total difficulty `td`. -/
structure Forked (start m : ChainManager σ) (chain : List LinkRef) (parent : Option LinkRef)
    (td : Nat) : Prop where
  block_eq (l : LinkRef) : (m.links l).block = (start.links l).block
  td_eq : ∀ l ∈ chain, (m.links l).td = some td
  first : ∀ l ∈ chain.head?, (m.links l).parent = parent
  chained : chain.IsChain fun up down => (m.links down).parent = some up
  others {l : LinkRef} : l ∉ chain → m.links l = start.links l
  found : ∀ l ∈ chain, AList.lookup (start.links l).block.hash m.workingTree = some l
  kept {hash : Bytes} : hash ∉ (start.blocksOf chain).map ChainBlock.hash →
    AList.lookup hash m.workingTree = AList.lookup hash start.workingTree

namespace Forked

variable {before rest left : List LinkRef} {parent : Option LinkRef} {l : LinkRef} {td : Nat}

theorem nil (m : ChainManager σ) (parent : Option LinkRef) (td : Nat) : Forked m m [] parent td :=
  ⟨fun _ => rfl, fun _ member => absurd member List.not_mem_nil,
    fun _ member => absurd member (by simp),
    .nil, fun _ => rfl, fun _ member => absurd member List.not_mem_nil, fun _ => rfl⟩

theorem join (forked : Forked start m before parent td) (own : Option LinkRef) (fresh : l ∉ before)
    (newHash : (start.links l).block.hash ∉ (start.blocksOf before).map ChainBlock.hash)
    (isFirst : before = [] → own = parent) (isNext : ∀ f ∈ before.getLast?, own = some f)
    (base : Nat) : Forked start (m.joinLink before l own base) (before ++ [l]) parent base := by
  have parent_eq {other : LinkRef} (member : other ∈ before) :
      ((m.joinLink before l own base).links other).parent = (m.links other).parent := by
    have different : other ≠ l := fun same => fresh (same ▸ member)
    rw [links_joinLink]
    exact if_neg different
  have own_eq : ((m.joinLink before l own base).links l).parent = own := by
    rw [links_joinLink]
    exact if_pos rfl
  constructor
  case block_eq =>
    intro other
    rw [(Touches.joinLink m before l own base).block_eq, forked.block_eq]
  case td_eq =>
    intro other member
    rw [links_joinLink]
    exact if_pos member
  case first =>
    intro other otherEq
    cases before with
    | nil =>
        obtain rfl : l = other := Option.some.inj otherEq
        exact own_eq.trans (isFirst rfl)
    | cons head before =>
        obtain rfl : head = other := Option.some.inj otherEq
        exact (parent_eq List.mem_cons_self).trans (forked.first head rfl)
  case chained =>
    refine (forked.chained.imp_of_mem_imp ?_).append (.singleton l) ?_
    · intro up down _ member isParent
      exact (parent_eq member).trans isParent
    · intro f lastEq next nextEq
      obtain rfl : l = next := Option.some.inj nextEq
      exact own_eq.trans (isNext f lastEq)
  case others =>
    intro other outside
    rw [(Touches.joinLink m before l own base).links_eq outside]
    exact forked.others fun member => outside (List.mem_append_left _ member)
  case found =>
    intro other member
    rw [lookup_joinLink, forked.block_eq]
    rcases List.mem_append.mp member with member | member
    · rw [if_neg]
      · exact forked.found other member
      · intro same
        exact newHash (same ▸ List.mem_map_of_mem (List.mem_map_of_mem member))
    · rw [List.mem_singleton.mp member, if_pos rfl]
  case kept =>
    intro hash outside
    rw [blocksOf, List.map_append, List.map_append, List.mem_append, not_or] at outside
    rw [lookup_joinLink, forked.block_eq, if_neg (by simpa using outside.2)]
    exact forked.kept outside.1

/-- The rest of the chain joins after a first part. -/
theorem run (forked : Forked start m before parent td) (nonempty : before ≠ [])
    (refs : (before ++ rest).Nodup)
    (hashes : ((start.blocksOf (before ++ rest)).map ChainBlock.hash).Nodup)
    (absent : ∀ l ∈ rest, AList.lookup (start.links l).block.hash start.workingTree = none)
    (joined : m.joinTree before rest = some (after, left)) :
    Forked start after (before ++ rest) parent
      (td + ((start.blocksOf rest).map ChainBlock.difficulty).sum) := by
  induction rest generalizing m before td with
  | nil =>
      cases joined
      simpa [blocksOf] using forked
  | cons l rest induction =>
      have newHash : (start.links l).block.hash ∉ (start.blocksOf before).map ChainBlock.hash := by
        rw [blocksOf, List.map_append, List.map_append] at hashes
        intro member
        exact (List.nodup_append.mp hashes).2.2 _ member _ List.mem_cons_self rfl
      have fresh : l ∉ before := fun member =>
        (List.nodup_append.mp refs).2.2 l member l List.mem_cons_self rfl
      have unseen : AList.lookup (m.links l).block.hash m.workingTree = none := by
        rw [forked.block_eq, forked.kept newHash]
        exact absent l List.mem_cons_self
      obtain ⟨f, lastEq⟩ : ∃ f, before.getLast? = some f :=
        ⟨_, List.getLast?_eq_some_getLast nonempty⟩
      have attached : m.attachment before (m.links l).block =
          some (some (some f, td + (start.links l).block.difficulty)) := by
        simp [attachment, lastEq, forked.td_eq f (List.mem_of_getLast? lastEq), forked.block_eq]
      rw [joinTree_join unseen attached] at joined
      have listEq : before ++ l :: rest = before ++ [l] ++ rest := by simp
      rw [listEq] at refs hashes ⊢
      have joinedOne := forked.join (some f) fresh newHash (fun empty => absurd empty nonempty)
        (fun other otherEq => lastEq.symm.trans otherEq) (td + (start.links l).block.difficulty)
      have whole := induction joinedOne (by simp) refs hashes
        (fun other member => absent other (List.mem_cons_of_mem _ member)) joined
      have sumEq : td + ((start.blocksOf (l :: rest)).map ChainBlock.difficulty).sum =
          td + (start.links l).block.difficulty +
            ((start.blocksOf rest).map ChainBlock.difficulty).sum := by
        simp [blocksOf, Nat.add_assoc]
      rw [sumEq]
      exact whole

end Forked

theorem forked_joinTree {front : LinkRef} {rest left : List LinkRef} {parent : Option LinkRef}
    {base : Nat} (refs : (front :: rest).Nodup)
    (hashes : ((m.blocksOf (front :: rest)).map ChainBlock.hash).Nodup)
    (absent : ∀ l ∈ front :: rest, AList.lookup (m.links l).block.hash m.workingTree = none)
    (attached : m.attachment [] (m.links front).block = some (some (parent, base)))
    (joined : m.joinTree [] (front :: rest) = some (after, left)) :
    Forked m after (front :: rest) parent
      (base + ((m.blocksOf rest).map ChainBlock.difficulty).sum) := by
  rw [joinTree_join (absent front List.mem_cons_self) attached] at joined
  have one := (Forked.nil m parent base).join (l := front) parent List.not_mem_nil
    List.not_mem_nil (fun _ => rfl) (fun f lastEq => absurd lastEq (by simp)) base
  exact one.run (by simp) refs hashes
    (fun l member => absent l (List.mem_cons_of_mem _ member)) joined

/-! ### What a fork is recorded with -/

/-- The total difficulty that `addChainToWorkingTree` starts from: for a branch off the
canonical chain, it adds the difficulty of the parent. -/
def forkBase (m : ChainManager σ) (first : ChainBlock) : Nat :=
  match AList.lookup first.prevHash m.workingTree with
  | some p => (m.links p).td.getD 0 + first.difficulty
  | none =>
      match m.getBlockCanonical first.prevHash with
      | some b => m.recordedTD b.hash + b.difficulty
      | none => 0

/-- The total difficulty that a fork is recorded with, without the uncles. -/
def forkTd (m : ChainManager σ) : List ChainBlock → Nat
  | [] => 0
  | first :: later => m.forkBase first + (later.map ChainBlock.difficulty).sum

variable {first : ChainBlock} {chain : List LinkRef} {blocks : List ChainBlock}
  {allocated tested : ChainManager σ} {td : Nat}

theorem attachment_first (fits : TreeFits m) (known : m.Known first.prevHash) :
    m.attachment [] first =
      some (some (AList.lookup first.prevHash m.workingTree, m.forkBase first)) := by
  simp only [attachment, forkBase, List.getLast?_nil]
  cases inTree : AList.lookup first.prevHash m.workingTree with
  | some p =>
      obtain ⟨td, tdEq⟩ := Option.isSome_iff_exists.mp (fits.processed inTree)
      simp [tdEq]
  | none =>
      have stored : (AList.lookup first.prevHash m.blocks).isSome := by
        rcases known with stored | inside
        · exact stored
        · rw [inTree] at inside
          exact absurd inside (by simp)
      obtain ⟨b, found⟩ := Option.isSome_iff_exists.mp stored
      simp [getBlockCanonical, found]

theorem Known.detectFork (recorded : Recorded m) (known : m.Known first.prevHash) :
    (m.setWorkingChain chain).detectFork first =
      decide (first.prevHash ≠ m.currentBlock.hash) := by
  have found : ∃ parent, (m.setWorkingChain chain).getBlock first.prevHash = some parent ∧
      parent.hash = first.prevHash := by
    have canonicalEq : (m.setWorkingChain chain).getBlockCanonical first.prevHash =
        AList.lookup first.prevHash m.blocks := rfl
    have treeEq : (m.setWorkingChain chain).workingTree = m.workingTree := rfl
    rw [getBlock, canonicalEq]
    cases stored : AList.lookup first.prevHash m.blocks with
    | some b => exact ⟨b, rfl, recorded.named stored⟩
    | none =>
        rcases known with inside | inside
        · rw [stored] at inside
          exact absurd inside (by simp)
        · obtain ⟨l, inTree⟩ := Option.isSome_iff_exists.mp inside
          simp only [getBlockWorking, treeEq, inTree]
          exact ⟨_, rfl, (recorded.tree inTree).2⟩
  obtain ⟨parent, parentEq, hashEq⟩ := found
  rw [ChainManager.detectFork, parentEq]
  have currentEq : (m.setWorkingChain chain).currentBlock = m.currentBlock := rfl
  simp [currentEq, hashEq, eq_comm]

/-- A tested fork is in the tree, with the difficulty above. -/
theorem NewLinks.forked {left : List LinkRef} {verdict : Verdict}
    (new : NewLinks tree m blocks allocated chain) (allocates : Allocates m blocks allocated chain)
    (sound : Sound tree m) (judges : Judges process tree) (firstEq : blocks.head? = some first)
    (known : m.Known first.prevHash) (away : first.prevHash ≠ m.currentBlock.hash)
    (testedEq : allocated.testChain process chain = some (tested, left, verdict))
    (passed : verdict ≠ .failed) :
    Forked allocated tested chain (AList.lookup first.prevHash m.workingTree)
      (m.forkTd blocks) := by
  obtain ⟨front, processed, last, frontEq, processedEq, ⟨-, failed, -⟩ |
    ⟨td, joined, rfl, -, rfl, joinedEq⟩⟩ := testChain_cases testedEq
  · exact absurd failed passed
  have processes := processes_processChain processedEq new.fresh.nodup
  have frontBlock : (allocated.links front).block = first := by
    obtain ⟨other, otherEq, blockEq⟩ := allocates.head firstEq
    obtain rfl : front = other := Option.some.inj (frontEq.symm.trans otherEq)
    exact blockEq
  have allocatedKnown : allocated.Known first.prevHash := by
    rw [Known, allocates.blocks_kept, allocates.workingTree_eq]
    exact known
  have forks : (allocated.setWorkingChain chain).detectFork (allocated.links front).block =
      true := by
    rw [frontBlock, allocatedKnown.detectFork new.sound.recorded, allocates.currentBlock_kept]
    exact decide_eq_true away
  rw [recordFork, if_pos forks, addChainToWorkingTree] at joinedEq
  have treeEq : processed.workingTree = m.workingTree :=
    processes.workingTree_eq.trans allocates.workingTree_eq
  have blocksEq : processed.blocks = m.blocks :=
    processes.touches.blocks_eq.trans allocates.blocks_kept
  have infosEq : processed.infos = m.infos :=
    processes.touches.infos_eq.trans allocates.infos_kept
  have processedBlocks : processed.blocksOf chain = allocated.blocksOf chain :=
    List.map_congr_left fun l _ => processes.touches.block_eq l
  have oldLink {hash : Bytes} {p : LinkRef} (inTree : AList.lookup hash m.workingTree = some p) :
      processed.links p = m.links p := by
    have below := (sound.recorded.tree inTree).1
    exact (processes.touches.links_eq (allocates.not_mem_of_lt below)).trans (allocates.kept below)
  have baseEq : processed.forkBase first = m.forkBase first := by
    rw [forkBase, forkBase, treeEq]
    cases inTree : AList.lookup first.prevHash m.workingTree with
    | some p => simp only [oldLink inTree]
    | none => simp only [getBlockCanonical, blocksEq, recordedTD, infosEq]
  have processedFits : TreeFits processed :=
    (new.sound.fits.setWorkingChain chain).processes
      (fun found => (new.sound.recorded.tree found).1) processes
  have processedKnown : processed.Known first.prevHash := by
    rw [Known, blocksEq, treeEq]
    exact known
  cases chain with
  | nil => exact absurd frontEq (by simp)
  | cons head rest =>
      obtain rfl : head = front := Option.some.inj frontEq
      have headBlock : (processed.links head).block = first :=
        (processes.touches.block_eq head).trans frontBlock
      have attached : processed.attachment [] (processed.links head).block =
          some (some (AList.lookup first.prevHash m.workingTree, m.forkBase first)) := by
        rw [headBlock, attachment_first processedFits processedKnown, treeEq, baseEq]
      have forked :=
        forked_joinTree new.fresh.nodup (processedBlocks ▸ new.nodup_hashes judges processedEq)
        (fun l member => by
          rw [processes.workingTree_eq, processes.touches.block_eq]
          exact new.absent l member) attached joinedEq
      have tdEq : m.forkBase first +
          ((processed.blocksOf rest).map ChainBlock.difficulty).sum = m.forkTd blocks := by
        have listEq : first :: processed.blocksOf rest = blocks := by
          rw [← allocates.blocks_eq, ← headBlock]
          exact processedBlocks
        rw [← listEq]
        rfl
      rw [tdEq] at forked
      constructor
      case block_eq => exact fun l => (forked.block_eq l).trans (processes.touches.block_eq l)
      case td_eq => exact forked.td_eq
      case first => exact forked.first
      case chained => exact forked.chained
      case others =>
        exact fun outside => (forked.others outside).trans (processes.touches.links_eq outside)
      case found =>
        intro l member
        have hashEq : (processed.links l).block.hash = (allocated.links l).block.hash :=
          congrArg _ (processes.touches.block_eq l)
        rw [← hashEq]
        exact forked.found l member
      case kept =>
        intro hash outside
        rw [← processedBlocks] at outside
        exact (forked.kept outside).trans (congrArg _ processes.workingTree_eq)

/-- A link of the tree is new, or it is an old one that has not changed. -/
theorem Forked.tree_cases {parent : Option LinkRef} {hash : Bytes} {l : LinkRef}
    (forked : Forked allocated tested chain parent td)
    (allocates : Allocates m blocks allocated chain) (recorded : Recorded m)
    (inTree : AList.lookup hash tested.workingTree = some l) :
    l ∈ chain ∨ AList.lookup hash m.workingTree = some l ∧ tested.links l = m.links l := by
  by_cases member : hash ∈ (allocated.blocksOf chain).map ChainBlock.hash
  · obtain ⟨b, bMember, rfl⟩ := List.mem_map.mp member
    obtain ⟨other, otherMember, rfl⟩ := List.mem_map.mp bMember
    cases (forked.found other otherMember).symm.trans inTree
    exact .inl otherMember
  · rw [forked.kept member, allocates.workingTree_eq] at inTree
    have below := (recorded.tree inTree).1
    exact .inr ⟨inTree, (forked.others (allocates.not_mem_of_lt below)).trans
      (allocates.kept below)⟩

/-! ### The branch point -/

/-- The canonical block that a fork with this first block branches off. -/
def branchHash (m : ChainManager σ) (first : ChainBlock) : Bytes :=
  match AList.lookup first.prevHash m.workingTree with
  | none => first.prevHash
  | some p =>
      match (m.lineage m.nextLink p).bind List.head? with
      | some root => (m.links root).block.prevHash
      | none => first.prevHash

/-- The links of the tree from the canonical chain up to a fork with this first block. -/
def stem (m : ChainManager σ) (first : ChainBlock) : List LinkRef :=
  match AList.lookup first.prevHash m.workingTree with
  | none => []
  | some p => (m.lineage m.nextLink p).getD []

section Walk

variable {path : List LinkRef} {back : LinkRef}
  (forked : Forked allocated tested chain (AList.lookup first.prevHash m.workingTree) td)
  (allocates : Allocates m blocks allocated chain) (sound : Sound tree m)
  (firstEq : blocks.head? = some first) (backEq : chain.getLast? = some back)
  (walked : tested.lineage tested.nextLink back = some path)
include forked allocates sound firstEq backEq walked

/-- The walk from the last link of a fork goes through the stem. -/
theorem Forked.path_eq :
    path = m.stem first ++ chain ∧ ∀ l ∈ m.stem first, tested.links l = m.links l := by
  have isPath := ParentForest.isPath_of_pathTo walked
  rw [stem]
  cases inTree : AList.lookup first.prevHash m.workingTree with
  | none =>
      rw [inTree] at forked
      obtain ⟨front, frontEq, -⟩ := allocates.head firstEq
      have direct : ParentForest.IsPath (fun l => (tested.links l).parent) back chain :=
        ⟨backEq, ⟨front, frontEq, forked.first front frontEq⟩, forked.chained⟩
      exact ⟨isPath.unique direct, fun l member => absurd member List.not_mem_nil⟩
  | some p =>
      rw [inTree] at forked
      have below := (sound.recorded.tree inTree).1
      obtain ⟨up, upWalked⟩ := sound.fits.exists_lineage below
      have upPath := ParentForest.isPath_of_pathTo upWalked
      have oldLink : ∀ l ∈ up, tested.links l = m.links l := by
        intro l member
        have old := (sound.fits.leads below upWalked).below l member
        exact (forked.others (allocates.not_mem_of_lt old)).trans (allocates.kept old)
      have moved : ParentForest.IsPath (fun l => (tested.links l).parent) p up :=
        upPath.congr fun l member => congrArg Link.parent (oldLink l member)
      have whole := moved.append (fun next nextEq => forked.first next nextEq) forked.chained backEq
      simp only [upWalked, Option.getD_some]
      exact ⟨isPath.unique whole, oldLink⟩

/-- The walk from the last link of a fork ends at the branch point. -/
theorem Forked.root_eq :
    ∃ root, path.head? = some root ∧ (tested.links root).block.prevHash = m.branchHash first := by
  obtain ⟨rfl, oldLink⟩ := forked.path_eq allocates sound firstEq backEq walked
  rw [stem] at oldLink ⊢
  rw [branchHash]
  cases inTree : AList.lookup first.prevHash m.workingTree with
  | none =>
      obtain ⟨front, frontEq, frontBlock⟩ := allocates.head firstEq
      refine ⟨front, frontEq, ?_⟩
      rw [forked.block_eq, frontBlock]
  | some p =>
      obtain ⟨up, upWalked⟩ := sound.fits.exists_lineage (sound.recorded.tree inTree).1
      obtain ⟨root, rootEq, -⟩ := (ParentForest.isPath_of_pathTo upWalked).root
      simp only [inTree, upWalked, Option.getD_some] at oldLink
      refine ⟨root, by simp [upWalked, rootEq], ?_⟩
      rw [oldLink root (List.mem_of_mem_head? rootEq)]
      simp [upWalked, rootEq]

end Walk

end ChainManager

end Thelonious
