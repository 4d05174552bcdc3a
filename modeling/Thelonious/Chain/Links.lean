import Thelonious.Chain.ChainManager

/-!
# What the functions of the chain manager leave alone

Testing a chain only changes the links of that chain and the working tree; the
canonical part of the manager changes when a chain is inserted.
-/

namespace Thelonious

theorem exists_getLast?_of_head? {α : Type*} {list : List α} {first : α}
    (firstEq : list.head? = some first) : ∃ last, list.getLast? = some last := by
  cases list with
  | nil => exact absurd firstEq (by simp)
  | cons _ _ => exact ⟨_, List.getLast?_cons⟩

/-- The canonical part of the chain manager. -/
structure CanonicalPart where
  genesisBlock : ChainBlock
  td : Nat
  currentBlockNumber : UInt64
  currentBlock : ChainBlock
  currentBlockHash : Bytes
  blocks : AssocMap Bytes ChainBlock
  infos : AssocMap Bytes BlockInfo

namespace ChainManager

variable {σ : Type} {m middle after : ChainManager σ}

def canonical (m : ChainManager σ) : CanonicalPart :=
  ⟨m.genesisBlock, m.td, m.currentBlockNumber, m.currentBlock, m.currentBlockHash, m.blocks,
    m.infos⟩

theorem links_setTd_self (m : ChainManager σ) (td : Nat) (l : LinkRef) :
    (m.setTd td l).links l = { m.links l with td := some td } :=
  Function.update_self _ _ _

variable {l : LinkRef} {rest left : List LinkRef}

theorem links_setTd_of_ne {other : LinkRef} (different : other ≠ l) (td : Nat) :
    (m.setTd td l).links other = m.links other :=
  Function.update_of_ne different _ _

theorem links_setParent_self (m : ChainManager σ) (parent : Option LinkRef) (l : LinkRef) :
    (m.setParent parent l).links l = { m.links l with parent := parent } :=
  Function.update_self _ _ _

theorem links_setParent_of_ne {other : LinkRef} (different : other ≠ l) (parent : Option LinkRef) :
    (m.setParent parent l).links other = m.links other :=
  Function.update_of_ne different _ _

theorem links_shareTd_of_mem {shared : List LinkRef} (member : l ∈ shared) (td : Nat) :
    (m.shareTd td shared).links l = { m.links l with td := some td } :=
  if_pos member

theorem links_shareTd_of_not_mem {shared : List LinkRef} (outside : l ∉ shared) (td : Nat) :
    (m.shareTd td shared).links l = m.links l :=
  if_neg outside

/-- `after` has the canonical part of `m`, and only the links in `refs` may differ, though
not in their block. -/
structure Touches (refs : List LinkRef) (m after : ChainManager σ) : Prop where
  canonical_eq : after.canonical = m.canonical
  nextLink_eq : after.nextLink = m.nextLink
  block_eq (l : LinkRef) : (after.links l).block = (m.links l).block
  links_eq {l : LinkRef} : l ∉ refs → after.links l = m.links l

namespace Touches

variable {refs more : List LinkRef}

theorem refl (refs : List LinkRef) (m : ChainManager σ) : Touches refs m m :=
  ⟨rfl, rfl, fun _ => rfl, fun _ => rfl⟩

theorem trans (first : Touches refs m middle) (second : Touches refs middle after) :
    Touches refs m after where
  canonical_eq := second.canonical_eq.trans first.canonical_eq
  nextLink_eq := second.nextLink_eq.trans first.nextLink_eq
  block_eq l := (second.block_eq l).trans (first.block_eq l)
  links_eq outside := (second.links_eq outside).trans (first.links_eq outside)

theorem mono (touches : Touches refs m after) (subset : refs ⊆ more) : Touches more m after where
  canonical_eq := touches.canonical_eq
  nextLink_eq := touches.nextLink_eq
  block_eq := touches.block_eq
  links_eq outside := touches.links_eq fun member => outside (subset member)

theorem blocks_eq (touches : Touches refs m after) : after.blocks = m.blocks :=
  congrArg CanonicalPart.blocks touches.canonical_eq

theorem infos_eq (touches : Touches refs m after) : after.infos = m.infos :=
  congrArg CanonicalPart.infos touches.canonical_eq

theorem td_eq (touches : Touches refs m after) : after.td = m.td :=
  congrArg CanonicalPart.td touches.canonical_eq

theorem currentBlock_eq (touches : Touches refs m after) : after.currentBlock = m.currentBlock :=
  congrArg CanonicalPart.currentBlock touches.canonical_eq

theorem currentBlockHash_eq (touches : Touches refs m after) :
    after.currentBlockHash = m.currentBlockHash :=
  congrArg CanonicalPart.currentBlockHash touches.canonical_eq

theorem currentBlockNumber_eq (touches : Touches refs m after) :
    after.currentBlockNumber = m.currentBlockNumber :=
  congrArg CanonicalPart.currentBlockNumber touches.canonical_eq

theorem setProcessor (m : ChainManager σ) (processor : σ) :
    Touches refs m (m.setProcessor processor) :=
  ⟨rfl, rfl, fun _ => rfl, fun _ => rfl⟩

theorem setWorkingChain (m : ChainManager σ) (chain : List LinkRef) :
    Touches refs m (m.setWorkingChain chain) :=
  ⟨rfl, rfl, fun _ => rfl, fun _ => rfl⟩

theorem setTd (m : ChainManager σ) (td : Nat) (l : LinkRef) : Touches [l] m (m.setTd td l) where
  canonical_eq := rfl
  nextLink_eq := rfl
  block_eq other := by
    by_cases same : other = l
    · rw [same, links_setTd_self]
    · rw [links_setTd_of_ne same]
  links_eq outside := links_setTd_of_ne (by simpa using outside) td

end Touches

/-! ### New links -/

/-- The links of a new chain are blank, and lie above all others. -/
structure Allocates (m : ChainManager σ) (blocks : List ChainBlock) (after : ChainManager σ)
    (chain : List LinkRef) : Prop where
  canonical_eq : after.canonical = m.canonical
  workingTree_eq : after.workingTree = m.workingTree
  workingChain_eq : after.workingChain = m.workingChain
  nextLink_le : m.nextLink ≤ after.nextLink
  kept {l : LinkRef} : l < m.nextLink → after.links l = m.links l
  fresh {l : LinkRef} : l ∈ chain ↔ m.nextLink ≤ l ∧ l < after.nextLink
  ascending : chain.Pairwise (· < ·)
  blocks_eq : chain.map (fun l => (after.links l).block) = blocks
  blank {l : LinkRef} : l ∈ chain → (after.links l).td = none ∧ (after.links l).parent = none

theorem allocates_newChain (m : ChainManager σ) (blocks : List ChainBlock) :
    Allocates m blocks (m.newChain blocks).1 (m.newChain blocks).2 := by
  induction blocks generalizing m with
  | nil =>
      refine ⟨rfl, rfl, rfl, le_rfl, fun _ => rfl, ?_, .nil, rfl,
        fun member => absurd member List.not_mem_nil⟩
      intro l
      constructor
      · exact fun member => absurd member List.not_mem_nil
      · exact fun between => absurd between.2 between.1.not_gt
  | cons block blocks induction =>
      have rest := induction (m.newLink block).1
      have headEq :
          ((m.newLink block).1.newChain blocks).1.links m.nextLink = ⟨block, none, none⟩ := by
        rw [rest.kept (Nat.lt_succ_self _)]
        exact Function.update_self _ _ _
      have next_le : m.nextLink + 1 ≤ ((m.newLink block).1.newChain blocks).1.nextLink :=
        rest.nextLink_le
      constructor
      case canonical_eq => exact rest.canonical_eq
      case workingTree_eq => exact rest.workingTree_eq
      case workingChain_eq => exact rest.workingChain_eq
      case nextLink_le => exact (Nat.le_succ _).trans next_le
      case kept =>
        intro l below
        refine (rest.kept (below.trans (Nat.lt_succ_self _))).trans ?_
        exact Function.update_of_ne below.ne _ _
      case fresh =>
        intro l
        constructor
        · intro member
          rcases List.mem_cons.mp member with rfl | member
          · exact ⟨le_rfl, next_le⟩
          · obtain ⟨above, below⟩ := rest.fresh.mp member
            exact ⟨(Nat.le_succ _).trans above, below⟩
        · rintro ⟨above, below⟩
          rcases above.eq_or_lt with rfl | above
          · exact List.mem_cons_self
          · exact List.mem_cons_of_mem _ (rest.fresh.mpr ⟨above, below⟩)
      case ascending =>
        refine List.pairwise_cons.mpr ⟨fun l member => ?_, rest.ascending⟩
        exact (Nat.lt_succ_self _).trans_le (rest.fresh.mp member).1
      case blocks_eq =>
        exact congrArg₂ List.cons (congrArg Link.block headEq) rest.blocks_eq
      case blank =>
        intro l member
        rcases List.mem_cons.mp member with rfl | member
        · exact ⟨congrArg Link.td headEq, congrArg Link.parent headEq⟩
        · exact rest.blank member

namespace Allocates

variable {blocks : List ChainBlock} {chain : List LinkRef}

theorem blocks_kept (allocates : Allocates m blocks after chain) : after.blocks = m.blocks :=
  congrArg CanonicalPart.blocks allocates.canonical_eq

theorem infos_kept (allocates : Allocates m blocks after chain) : after.infos = m.infos :=
  congrArg CanonicalPart.infos allocates.canonical_eq

theorem td_kept (allocates : Allocates m blocks after chain) : after.td = m.td :=
  congrArg CanonicalPart.td allocates.canonical_eq

theorem currentBlock_kept (allocates : Allocates m blocks after chain) :
    after.currentBlock = m.currentBlock :=
  congrArg CanonicalPart.currentBlock allocates.canonical_eq

theorem currentBlockHash_kept (allocates : Allocates m blocks after chain) :
    after.currentBlockHash = m.currentBlockHash :=
  congrArg CanonicalPart.currentBlockHash allocates.canonical_eq

theorem currentBlockNumber_kept (allocates : Allocates m blocks after chain) :
    after.currentBlockNumber = m.currentBlockNumber :=
  congrArg CanonicalPart.currentBlockNumber allocates.canonical_eq

theorem block_mem (allocates : Allocates m blocks after chain) {l : LinkRef}
    (member : l ∈ chain) : (after.links l).block ∈ blocks := by
  rw [← allocates.blocks_eq]
  exact List.mem_map_of_mem member

theorem nodup (allocates : Allocates m blocks after chain) : chain.Nodup :=
  allocates.ascending.imp fun below => below.ne

theorem not_mem_of_lt (allocates : Allocates m blocks after chain) {l : LinkRef}
    (below : l < m.nextLink) : l ∉ chain :=
  fun member => absurd below (allocates.fresh.mp member).1.not_gt

end Allocates

/-! ### Testing a chain -/

variable {process : ChainManager σ → ChainBlock → ChainBlock → Bool × σ}

/-- `processChain` unfolded once: a block without a known parent, a block that is
rejected, or one whose total difficulty is set. -/
theorem processChain_cons {td : Nat} {last : Option Nat}
    (processed : m.processChain process td (l :: rest) = some (after, last)) :
    (m.getBlock (m.links l).block.prevHash = none ∧ after = m ∧ last = none) ∨
      ∃ parent processor, m.getBlock (m.links l).block.prevHash = some parent ∧
        ((process m (m.links l).block parent = (false, processor) ∧
            after = m.setProcessor processor ∧ last = none) ∨
          ∃ own, process m (m.links l).block parent = (true, processor) ∧
            m.calcTotalDiff (m.links l).block = some own ∧
            ((m.setProcessor processor).setTd own l).processChain process own rest =
              some (after, last)) := by
  simp only [processChain] at processed
  split at processed
  · rename_i unknown
    cases processed
    exact .inl ⟨unknown, rfl, rfl⟩
  · rename_i parent parentEq
    refine .inr ⟨parent, (process m (m.links l).block parent).2, parentEq, ?_⟩
    split at processed
    · rename_i accepts
      obtain ⟨own, ownEq, processed⟩ := Option.bind_eq_some_iff.mp processed
      exact .inr ⟨own, Prod.ext accepts rfl, ownEq, processed⟩
    · rename_i rejects
      cases processed
      exact .inl ⟨Prod.ext (by simpa using rejects) rfl, rfl, rfl⟩

/-- What `processChain` does: it sets total difficulties. -/
structure Processes (rest : List LinkRef) (m after : ChainManager σ) (last : Option Nat) :
    Prop where
  touches : Touches rest m after
  workingTree_eq : after.workingTree = m.workingTree
  workingChain_eq : after.workingChain = m.workingChain
  parent_eq (l : LinkRef) : (after.links l).parent = (m.links l).parent
  td_kept {l : LinkRef} : (m.links l).td.isSome → (after.links l).td.isSome
  td_isSome {l : LinkRef} : last.isSome → l ∈ rest → (after.links l).td.isSome
  td_last {back : LinkRef} : last.isSome → rest.getLast? = some back → (after.links back).td = last

theorem processes_setTd (m : ChainManager σ) (processor : σ) (td : Nat) (l : LinkRef) :
    Processes [l] m ((m.setProcessor processor).setTd td l) (some td) where
  touches := (Touches.setProcessor m processor).trans (.setTd _ td l)
  workingTree_eq := rfl
  workingChain_eq := rfl
  parent_eq other := by
    by_cases same : other = l
    · rw [same, links_setTd_self]
      rfl
    · rw [links_setTd_of_ne same]
      rfl
  td_kept {other} some := by
    by_cases same : other = l
    · rw [same, links_setTd_self]
      rfl
    · rw [links_setTd_of_ne same]
      exact some
  td_isSome _ member := by
    rw [List.mem_singleton.mp member, links_setTd_self]
    rfl
  td_last {back} _ backEq := by
    obtain rfl : l = back := Option.some.inj backEq
    rw [links_setTd_self]

theorem processes_processChain {td : Nat} {last : Option Nat}
    (processed : m.processChain process td rest = some (after, last)) (nodup : rest.Nodup) :
    Processes rest m after last := by
  induction rest generalizing m td with
  | nil =>
      cases processed
      exact ⟨.refl _ _, rfl, rfl, fun _ => rfl, id, fun _ member => absurd member List.not_mem_nil,
        fun _ backEq => absurd backEq (by simp)⟩
  | cons l rest induction =>
      obtain ⟨fresh, nodup⟩ := List.nodup_cons.mp nodup
      rcases processChain_cons processed with ⟨-, rfl, rfl⟩ | ⟨parent, processor, -, ⟨-, rfl, rfl⟩ |
        ⟨own, -, -, processed⟩⟩
      · exact ⟨.refl _ _, rfl, rfl, fun _ => rfl, id, fun failed => absurd failed (by simp),
          fun failed => absurd failed (by simp)⟩
      · exact ⟨.setProcessor _ _, rfl, rfl, fun _ => rfl, id,
          fun failed => absurd failed (by simp), fun failed => absurd failed (by simp)⟩
      · have first := processes_setTd m processor own l
        have later := induction processed nodup
        refine ⟨(first.touches.mono (by simp)).trans
          (later.touches.mono (List.subset_cons_self _ _)),
          later.workingTree_eq, later.workingChain_eq, fun other => ?_, fun some => ?_,
          fun succeeded member => ?_, fun {back} succeeded backEq => ?_⟩
        · rw [later.parent_eq, first.parent_eq]
        · exact later.td_kept (first.td_kept some)
        · rcases List.mem_cons.mp member with rfl | member
          · exact later.td_kept (first.td_isSome rfl (by simp))
          · exact later.td_isSome succeeded member
        · cases rest with
          | nil =>
              cases processed
              exact first.td_last rfl backEq
          | cons next rest => exact later.td_last succeeded backEq

theorem links_joinLink (m : ChainManager σ) (before : List LinkRef) (l : LinkRef)
    (parent : Option LinkRef) (base : Nat) (other : LinkRef) :
    (m.joinLink before l parent base).links other =
      { block := (m.links other).block
        td := if other ∈ before ++ [l] then some base else (m.links other).td
        parent := if other = l then parent else (m.links other).parent } := by
  change ((m.setParent parent l).shareTd base (before ++ [l])).links other = _
  by_cases member : other ∈ before ++ [l]
  · rw [links_shareTd_of_mem member, if_pos member]
    by_cases same : other = l
    · rw [same, links_setParent_self, if_pos rfl]
    · rw [links_setParent_of_ne same, if_neg same]
  · rw [links_shareTd_of_not_mem member, if_neg member]
    have different : other ≠ l := fun same => member (by simp [same])
    rw [links_setParent_of_ne different, if_neg different]

theorem lookup_joinLink (m : ChainManager σ) (before : List LinkRef) (l : LinkRef)
    (parent : Option LinkRef) (base : Nat) (hash : Bytes) :
    AList.lookup hash (m.joinLink before l parent base).workingTree =
      if hash = (m.links l).block.hash then some l else AList.lookup hash m.workingTree := by
  split
  · rename_i same
    rw [same]
    exact AList.lookup_insert _
  · rename_i different
    exact AList.lookup_insert_ne different

/-- `joinTree` unfolded once. -/
theorem joinTree_cons {before : List LinkRef}
    (joined : m.joinTree before (l :: rest) = some (after, left)) :
    ((AList.lookup (m.links l).block.hash m.workingTree).isSome ∧ after = m ∧
        left = before ++ rest) ∨
      (AList.lookup (m.links l).block.hash m.workingTree = none ∧
        ((m.attachment before (m.links l).block = some none ∧ after = m ∧
            left = before ++ l :: rest) ∨
          ∃ parent base, m.attachment before (m.links l).block = some (some (parent, base)) ∧
            (m.joinLink before l parent base).joinTree (before ++ [l]) rest =
              some (after, left))) := by
  simp only [joinTree] at joined
  split at joined
  · rename_i known
    cases joined
    exact .inl ⟨known, rfl, rfl⟩
  · rename_i unknown
    refine .inr ⟨by simpa using unknown, ?_⟩
    obtain ⟨attached, attachedEq, joined⟩ := Option.bind_eq_some_iff.mp joined
    cases attached with
    | none =>
        cases joined
        exact .inl ⟨attachedEq, rfl, rfl⟩
    | some attached => exact .inr ⟨attached.1, attached.2, attachedEq, joined⟩

theorem Touches.joinLink (m : ChainManager σ) (before : List LinkRef) (l : LinkRef)
    (parent : Option LinkRef) (base : Nat) :
    Touches (before ++ [l]) m (m.joinLink before l parent base) where
  canonical_eq := rfl
  nextLink_eq := rfl
  block_eq other := by rw [links_joinLink]
  links_eq {other} outside := by
    have different : other ≠ l := fun same => outside (by simp [same])
    rw [links_joinLink, if_neg outside, if_neg different]

theorem touches_joinTree {before : List LinkRef}
    (joined : m.joinTree before rest = some (after, left)) :
    Touches (before ++ rest) m after ∧ after.workingChain = m.workingChain := by
  induction rest generalizing m before with
  | nil =>
      cases joined
      exact ⟨.refl _ _, rfl⟩
  | cons l rest induction =>
      rcases joinTree_cons joined with ⟨-, rfl, -⟩ | ⟨-, ⟨-, rfl, -⟩ | ⟨parent, base, -, joined⟩⟩
      · exact ⟨.refl _ _, rfl⟩
      · exact ⟨.refl _ _, rfl⟩
      · obtain ⟨later, workingChain_eq⟩ := induction joined
        rw [List.append_assoc, List.singleton_append] at later
        exact ⟨((Touches.joinLink m before l parent base).mono (by simp)).trans later,
          workingChain_eq⟩

/-- `TestChain` unfolded once: its fork test, its loop, and what it adds to the tree. -/
theorem testChain_cases {chain : List LinkRef} {verdict : Verdict}
    (tested : m.testChain process chain = some (after, left, verdict)) :
    ∃ front processed last, chain.head? = some front ∧
      (m.setWorkingChain chain).processChain process 0 chain = some (processed, last) ∧
      ((last = none ∧ verdict = .failed ∧ left = chain ∧
          after = processed.setWorkingChain []) ∨
        ∃ td joined, last = some td ∧
          verdict = (if td ≤ joined.td then .tooLight else .accepted) ∧
          after = joined.setWorkingChain [] ∧
          processed.recordFork ((m.setWorkingChain chain).detectFork (m.links front).block) chain =
            some (joined, left)) := by
  obtain ⟨front, frontEq, tested⟩ := Option.bind_eq_some_iff.mp tested
  obtain ⟨⟨processed, last⟩, processedEq, tested⟩ := Option.bind_eq_some_iff.mp tested
  refine ⟨front, processed, last, frontEq, processedEq, ?_⟩
  cases last with
  | none =>
      obtain ⟨rfl, rfl, rfl⟩ := by simpa using tested
      exact .inl ⟨rfl, rfl, rfl, rfl⟩
  | some td =>
      obtain ⟨⟨joined, rest⟩, joinedEq, tested⟩ := Option.bind_eq_some_iff.mp tested
      obtain ⟨rfl, rfl, rfl⟩ := by simpa using tested
      exact .inr ⟨td, joined, rfl, rfl, rfl, joinedEq⟩

/-- Testing a chain touches nothing but its links and the working tree. -/
theorem touches_testChain {chain : List LinkRef} {verdict : Verdict}
    (tested : m.testChain process chain = some (after, left, verdict)) (nodup : chain.Nodup) :
    Touches chain m after ∧ after.workingChain = [] := by
  obtain ⟨front, processed, last, -, processedEq, outcome⟩ := testChain_cases tested
  have started : Touches chain m processed :=
    (Touches.setWorkingChain m chain).trans (processes_processChain processedEq nodup).touches
  rcases outcome with ⟨-, -, -, rfl⟩ | ⟨td, joined, -, -, rfl, joinedEq⟩
  · exact ⟨started.trans (.setWorkingChain _ _), rfl⟩
  · refine ⟨?_, rfl⟩
    unfold recordFork at joinedEq
    split at joinedEq
    · exact (started.trans (touches_joinTree joinedEq).1).trans (.setWorkingChain _ _)
    · cases joinedEq
      exact started.trans (.setWorkingChain _ _)

end ChainManager

end Thelonious
