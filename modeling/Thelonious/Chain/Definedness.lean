import Thelonious.Chain.Rounds

/-!
# Which calls return

`TestChain` returns on every hash-linked chain whose first parent is known, since
every known block has a total difficulty.  The walk back from the old head in a
reorganisation returns if and only if it meets the branch point.
-/

namespace Thelonious

namespace ChainManager

variable {σ : Type} {m start after : ChainManager σ} {tree : BlockTree}
variable {process : ChainManager σ → ChainBlock → ChainBlock → Bool × σ}

/-- The processor accepts the block in every state. -/
def Passes (process : ChainManager σ → ChainBlock → ChainBlock → Bool × σ) (b : ChainBlock) :
    Prop :=
  ∀ m parent, (process m b parent).1 = true

/-- The block with the hash is in the database or in the working tree. -/
def Known (m : ChainManager σ) (hash : Bytes) : Prop :=
  (AList.lookup hash m.blocks).isSome ∨ (AList.lookup hash m.workingTree).isSome

variable {l : LinkRef} {before rest : List LinkRef} {hash : Bytes}

theorem Known.exists_getBlock (known : m.Known hash) : ∃ b, m.getBlock hash = some b := by
  rw [getBlock, getBlockCanonical]
  cases stored : AList.lookup hash m.blocks with
  | some b => exact ⟨b, rfl⟩
  | none =>
      have inTree : (AList.lookup hash m.workingTree).isSome :=
        known.resolve_left (by simp [stored])
      obtain ⟨l, found⟩ := Option.isSome_iff_exists.mp inTree
      exact ⟨(m.links l).block, by simp [getBlockWorking, found]⟩

/-! ### The loop of `TestChain` -/

theorem processChain_reject {parent : ChainBlock} {processor : σ}
    (parentEq : m.getBlock (m.links l).block.prevHash = some parent)
    (rejects : process m (m.links l).block parent = (false, processor)) (td : Nat)
    (rest : List LinkRef) :
    m.processChain process td (l :: rest) = some (m.setProcessor processor, none) := by
  simp [processChain, parentEq, rejects]

theorem processChain_accept {parent : ChainBlock} {processor : σ} {own : Nat}
    (parentEq : m.getBlock (m.links l).block.prevHash = some parent)
    (accepts : process m (m.links l).block parent = (true, processor))
    (calculated : m.calcTotalDiff (m.links l).block = some own) (td : Nat) (rest : List LinkRef) :
    m.processChain process td (l :: rest) =
      ((m.setProcessor processor).setTd own l).processChain process own rest := by
  have same : (m.setProcessor processor).calcTotalDiff (m.links l).block = some own := calculated
  simp [processChain, parentEq, accepts, same]

/-- The parent of the next link of a hash-linked chain is found, and has a total
difficulty. -/
theorem Processing.exists_parent (processing : Processing tree start m)
    (chainEq : m.workingChain = before ++ l :: rest)
    (linked : HashLinked (start.blocksOf (before ++ l :: rest)))
    (first : before = [] → start.Known (start.links l).block.prevHash)
    (done : ∀ f ∈ before, (m.links f).td.isSome) :
    ∃ parent own, m.getBlock (start.links l).block.prevHash = some parent ∧
      m.calcTotalDiff (start.links l).block = some own := by
  have found : ∃ parent, m.getBlock (start.links l).block.prevHash = some parent := by
    rw [getBlock, getBlockCanonical, processing.blocks_eq]
    split
    · exact ⟨_, rfl⟩
    · rename_i absent
      rw [getBlockWorking, processing.workingTree_eq]
      split
      · exact ⟨_, rfl⟩
      · rename_i outside
        rcases prev_mem linked with rfl | ⟨f, member, hashEq⟩
        · rcases first rfl with stored | inTree
          · rw [absent] at stored
            exact absurd stored (by simp)
          · rw [outside] at inTree
            exact absurd inTree (by simp)
        · have working : (m.findWorking (start.links l).block.prevHash).isSome := by
            rw [findWorking, List.find?_isSome, chainEq]
            refine ⟨f, List.mem_append_left _ member, ?_⟩
            rw [hashEq, processing.block_eq]
            simp
          obtain ⟨other, otherEq⟩ := Option.isSome_iff_exists.mp working
          rw [otherEq]
          exact ⟨_, rfl⟩
  obtain ⟨parent, parentEq⟩ := found
  have parentHash := (processing.getBlock_cases parentEq).1
  have td : ∃ td, m.blockInfoTD (start.links l).block.prevHash = some td := by
    rcases processing.blockInfoTD_cases parentEq with ⟨-, path, -, tdEq⟩ |
      ⟨absent, ⟨p, inTree, tdEq⟩ | ⟨outside, other, found, tdEq⟩⟩
    · exact ⟨_, tdEq⟩
    · rw [tdEq]
      exact Option.isSome_iff_exists.mp
        (processing.td_kept (processing.sound.fits.processed inTree))
    · rw [tdEq]
      rcases prev_mem linked with rfl | ⟨f, member, hashEq⟩
      · rcases first rfl with stored | inTree
        · rw [absent] at stored
          exact absurd stored (by simp)
        · rw [outside] at inTree
          exact absurd inTree (by simp)
      · refine Option.isSome_iff_exists.mp (done other ?_)
        exact findWorking_mem chainEq member
          ((congrArg _ (processing.block_eq f)).trans hashEq.symm) found
  obtain ⟨td, tdEq⟩ := td
  refine ⟨parent, td + (start.links l).block.weight, parentEq, ?_⟩
  simp [calcTotalDiff, parentEq, parentHash, tdEq]

theorem exists_processChain (process : ChainManager σ → ChainBlock → ChainBlock → Bool × σ)
    (td : Nat) (before rest : List LinkRef) (processing : Processing tree start m)
    (nodup : (before ++ rest).Nodup)
    (chainEq : m.workingChain = before ++ rest)
    (linked : HashLinked (start.blocksOf (before ++ rest)))
    (first : ∀ l ∈ (before ++ rest).head?, start.Known (start.links l).block.prevHash)
    (done : ∀ f ∈ before, (m.links f).td.isSome) :
    ∃ after last, m.processChain process td rest = some (after, last) ∧
      ((∀ l ∈ rest, Passes process (start.links l).block) → last.isSome) := by
  induction rest generalizing m before td with
  | nil => exact ⟨m, some td, rfl, fun _ => rfl⟩
  | cons l rest induction =>
      obtain ⟨parent, own, parentEq, calculated⟩ := processing.exists_parent chainEq linked
        (fun empty => first l (by simp [empty])) done
      rw [← processing.block_eq] at parentEq calculated
      obtain ⟨verdict, processor, verdictEq⟩ : ∃ verdict processor,
          process m (m.links l).block parent = (verdict, processor) := ⟨_, _, rfl⟩
      cases verdict with
      | false =>
          refine ⟨_, none, processChain_reject parentEq verdictEq td rest, fun passes => ?_⟩
          have accepted := passes l List.mem_cons_self m parent
          rw [← processing.block_eq, verdictEq] at accepted
          exact absurd accepted (by simp)
      | true =>
          rw [processChain_accept parentEq verdictEq calculated]
          have listEq : before ++ l :: rest = before ++ [l] ++ rest := by simp
          rw [listEq] at nodup chainEq linked first
          have doneToo : ∀ f ∈ before ++ [l],
              (((m.setProcessor processor).setTd own l).links f).td.isSome := by
            intro f member
            have processes := processes_setTd m processor own l
            rcases List.mem_append.mp member with member | member
            · exact processes.td_kept (done f member)
            · exact processes.td_isSome rfl member
          obtain ⟨after, last, processed, passed⟩ := induction own
            (before ++ [l]) (processing.setTd processor own l) nodup chainEq linked first doneToo
          exact ⟨after, last, processed, fun passes =>
            passed fun other member => passes other (List.mem_cons_of_mem _ member)⟩

/-! ### Joining the tree -/

theorem joinTree_join {parent : Option LinkRef} {base : Nat}
    (absent : AList.lookup (m.links l).block.hash m.workingTree = none)
    (attached : m.attachment before (m.links l).block = some (some (parent, base))) :
    m.joinTree before (l :: rest) =
      (m.joinLink before l parent base).joinTree (before ++ [l]) rest := by
  simp [joinTree, absent, attached]

theorem exists_attachment (block : ChainBlock)
    (processed : ∀ {hash l}, AList.lookup hash m.workingTree = some l → (m.links l).td.isSome)
    (done : ∀ f ∈ before, (m.links f).td.isSome) :
    ∃ attached, m.attachment before block = some attached := by
  rw [attachment]
  split
  · rename_i f lastEq
    obtain ⟨td, tdEq⟩ := Option.isSome_iff_exists.mp (done f (List.mem_of_getLast? lastEq))
    exact ⟨_, by rw [tdEq]; rfl⟩
  · split
    · rename_i p found
      obtain ⟨td, tdEq⟩ := Option.isSome_iff_exists.mp (processed found)
      exact ⟨_, by rw [tdEq]; rfl⟩
    · split
      · exact ⟨_, rfl⟩
      · exact ⟨_, rfl⟩

theorem exists_joinTree
    (processed : ∀ {hash l}, AList.lookup hash m.workingTree = some l → (m.links l).td.isSome)
    (done : ∀ f ∈ before, (m.links f).td.isSome) :
    ∃ after left, m.joinTree before rest = some (after, left) := by
  induction rest generalizing m before with
  | nil => exact ⟨m, before, rfl⟩
  | cons l rest induction =>
      by_cases seen : (AList.lookup (m.links l).block.hash m.workingTree).isSome
      · exact ⟨m, before ++ rest, by simp [joinTree, seen]⟩
      · have absent : AList.lookup (m.links l).block.hash m.workingTree = none := by
          simpa using seen
        obtain ⟨attached, attachedEq⟩ :=
          exists_attachment (m.links l).block processed done
        cases attached with
        | none => exact ⟨m, before ++ l :: rest, by simp [joinTree, absent, attachedEq]⟩
        | some attached =>
            rw [joinTree_join absent attachedEq]
            refine induction ?_ ?_
            · intro hash other found
              rw [lookup_joinLink] at found
              split at found
              · cases found
                rw [links_joinLink]
                simp
              · exact td_joinLink_isSome (processed found)
            · intro f member
              rw [links_joinLink]
              simp only [if_pos member]
              rfl

/-- `TestChain` returns on a hash-linked chain with a known first parent; it does not fail
if the processor accepts all blocks. -/
theorem Sound.exists_testChain (sound : Sound tree m)
    (process : ChainManager σ → ChainBlock → ChainBlock → Bool × σ) {chain : List LinkRef}
    (fresh : Fresh m chain) (linked : HashLinked (m.blocksOf chain)) (nonempty : chain ≠ [])
    (first : ∀ l ∈ chain.head?, m.Known (m.links l).block.prevHash) :
    ∃ after left verdict, m.testChain process chain = some (after, left, verdict) ∧
      ((∀ l ∈ chain, Passes process (m.links l).block) → verdict ≠ .failed) := by
  obtain ⟨front, frontEq⟩ : ∃ front, chain.head? = some front :=
    ⟨chain.head nonempty, List.head?_eq_some_head nonempty⟩
  obtain ⟨processed, last, processedEq, passed⟩ := exists_processChain process 0 []
    chain (Processing.setWorkingChain sound fresh.below) fresh.nodup rfl linked
    first fun f member => absurd member List.not_mem_nil
  have processes := processes_processChain processedEq fresh.nodup
  cases last with
  | none =>
      refine ⟨processed.setWorkingChain [], chain, .failed, ?_, fun passes => ?_⟩
      · simp [ChainManager.testChain, frontEq, processedEq]
      · exact absurd (passed passes) (by simp)
  | some td =>
      have joins : ∃ joined left, processed.recordFork
          ((m.setWorkingChain chain).detectFork (m.links front).block) chain =
            some (joined, left) := by
        unfold recordFork
        split
        · refine exists_joinTree ?_ fun f member => absurd member List.not_mem_nil
          intro hash l found
          rw [processes.workingTree_eq] at found
          exact processes.td_kept (sound.fits.processed found)
        · exact ⟨_, _, rfl⟩
      obtain ⟨joined, left, joinedEq⟩ := joins
      refine ⟨joined.setWorkingChain [], left, if td ≤ joined.td then .tooLight else .accepted,
        ?_, fun _ => ?_⟩
      · have frontBlock : ((m.setWorkingChain chain).links front).block = (m.links front).block :=
          rfl
        simp [ChainManager.testChain, frontEq, processedEq, frontBlock, joinedEq]
      · split
        · decide
        · decide

/-! ### The walk back from the old head -/

/-- The hashes of the blocks before the one with the hash `start`. -/
inductive Before (m : ChainManager σ) (start : Bytes) : Bytes → Prop
  | parent {b : ChainBlock} : AList.lookup start m.blocks = some b → Before m start b.prevHash
  | step {hash : Bytes} {b : ChainBlock} : Before m start hash →
      AList.lookup hash m.blocks = some b → Before m start b.prevHash

/-- The hashes of the blocks before the current one. -/
def Behind (m : ChainManager σ) : Bytes → Prop := m.Before m.currentBlock.hash

theorem Before.congr {start : Bytes} (before : m.Before start hash)
    (blocksEq : after.blocks = m.blocks) : after.Before start hash := by
  induction before with
  | parent found => exact .parent (blocksEq ▸ found)
  | step _ found induction => exact .step induction (blocksEq ▸ found)

theorem Behind.congr (behind : m.Behind hash) (blocksEq : after.blocks = m.blocks)
    (currentEq : after.currentBlock = m.currentBlock) : after.Behind hash := by
  rw [Behind, currentEq]
  exact Before.congr behind blocksEq

namespace Sound

variable {path : List Bytes} {hash : Bytes} {b : ChainBlock}

theorem length_lt_known (sound : Sound tree m) (stored : (AList.lookup hash m.blocks).isSome)
    (descends : tree.Descends hash path) : path.length ≤ m.known := by
  obtain ⟨other, leads, inside⟩ := sound.descends stored
  obtain rfl := descends.unique leads
  refine le_trans ?_ (Nat.le_add_right _ _)
  refine (List.subperm_of_subset descends.nodup fun hash member => ?_).length_le
  exact AList.lookup_isSome.mp (inside hash member)

theorem getBlock_stored (found : AList.lookup hash m.blocks = some b) :
    m.getBlock hash = some b := by
  rw [getBlock, getBlockCanonical, found]

theorem exists_blocksAbove (sound : Sound tree m) {ancestorHash : Bytes} {fuel : Nat}
    (stored : AList.lookup b.hash m.blocks = some b) (descends : tree.Descends b.hash path)
    (behind : ancestorHash ∈ tree.genesis.hash :: path) (enough : path.length < fuel) :
    ∃ blocks, m.blocksAbove ancestorHash fuel b = some blocks := by
  induction fuel generalizing b path with
  | zero => exact absurd enough (Nat.not_lt_zero _)
  | succ fuel induction =>
      rw [blocksAbove]
      by_cases arrived : b.hash = ancestorHash
      · exact ⟨[], if_pos arrived⟩
      · rw [if_neg arrived]
        have above : b.hash ≠ tree.genesis.hash := by
          intro isGenesis
          rw [isGenesis] at descends arrived
          obtain rfl := descends.unique .root
          exact arrived (List.mem_singleton.mp behind).symm
        obtain ⟨contained, parentStored⟩ := sound.parent_stored stored above
        obtain ⟨before, rfl, leads⟩ := contained.descends_parent descends
        obtain ⟨parent, parentEq⟩ := Option.isSome_iff_exists.mp parentStored
        have parentHash := sound.recorded.named parentEq
        rw [← parentHash] at leads parentEq
        have behindParent : ancestorHash ∈ tree.genesis.hash :: before := by
          rcases List.mem_cons.mp behind with isGenesis | member
          · exact isGenesis ▸ List.mem_cons_self
          · rcases List.mem_append.mp member with member | member
            · exact List.mem_cons_of_mem _ member
            · exact absurd (List.mem_singleton.mp member).symm arrived
        obtain ⟨blocks, walked⟩ := induction parentEq leads behindParent (by simpa using enough)
        refine ⟨blocks ++ [b], ?_⟩
        rw [← parentHash, getBlock_stored parentEq]
        simp [walked]

theorem behind_of_blocksAbove (sound : Sound tree m) {ancestorHash : Bytes} {fuel : Nat}
    {blocks : List ChainBlock} (stored : AList.lookup b.hash m.blocks = some b)
    (descends : tree.Descends b.hash path)
    (walked : m.blocksAbove ancestorHash fuel b = some blocks) :
    ancestorHash ∈ tree.genesis.hash :: path := by
  induction fuel generalizing b path blocks with
  | zero => cases walked
  | succ fuel induction =>
      rw [blocksAbove] at walked
      split at walked
      · rename_i arrived
        rw [← arrived]
        by_cases isGenesis : b.hash = tree.genesis.hash
        · exact isGenesis ▸ List.mem_cons_self
        · exact List.mem_cons_of_mem _ (descends.mem_of_ne_root isGenesis)
      · obtain ⟨parent, parentEq, walked⟩ := Option.bind_eq_some_iff.mp walked
        obtain ⟨before, walkedUp, -⟩ := Option.bind_eq_some_iff.mp walked
        have above : b.hash ≠ tree.genesis.hash := by
          intro isGenesis
          rw [isGenesis, sound.origin] at stored
          rw [← Option.some.inj stored, sound.getBlock_before] at parentEq
          exact absurd parentEq (by simp)
        obtain ⟨contained, parentStored⟩ := sound.parent_stored stored above
        obtain ⟨up, rfl, leads⟩ := contained.descends_parent descends
        obtain ⟨found, foundEq⟩ := Option.isSome_iff_exists.mp parentStored
        rw [getBlock_stored foundEq] at parentEq
        cases parentEq
        have parentHash := sound.recorded.named foundEq
        rw [← parentHash] at foundEq leads
        have inside := induction foundEq leads walkedUp
        rcases List.mem_cons.mp inside with isGenesis | member
        · exact isGenesis ▸ List.mem_cons_self
        · exact List.mem_cons_of_mem _ (List.mem_append_left _ member)

theorem descends_of_before (sound : Sound tree m) {start : Bytes}
    (descends : tree.Descends start path) (before : m.Before start hash) :
    hash = tree.genesis.prevHash ∨
      ∃ upTo later, tree.Descends hash upTo ∧ path = upTo ++ later ∧ later ≠ [] := by
  -- one step down from a block of the ancestry
  have step : ∀ {b : ChainBlock} {upTo later : List Bytes}, AList.lookup b.hash m.blocks = some b →
      tree.Descends b.hash upTo → path = upTo ++ later →
      b.prevHash = tree.genesis.prevHash ∨
        ∃ up later, tree.Descends b.prevHash up ∧ path = up ++ later ∧ later ≠ [] := by
    intro b upTo later found leads pathEq
    by_cases isGenesis : b.hash = tree.genesis.hash
    · rw [isGenesis, sound.origin] at found
      exact .inl (congrArg _ (Option.some.inj found).symm)
    · obtain ⟨contained, -⟩ := sound.parent_stored found isGenesis
      obtain ⟨up, rfl, leadsUp⟩ := contained.descends_parent leads
      exact .inr ⟨up, b.hash :: later, leadsUp, by simp [pathEq], by simp⟩
  induction before with
  | @parent b found =>
      obtain rfl := sound.recorded.named found
      exact step found descends (List.append_nil path).symm
  | @step hash b _ found induction =>
      obtain rfl := sound.recorded.named found
      rcases induction with isBefore | ⟨upTo, later, leads, pathEq, -⟩
      · rw [isBefore, sound.before] at found
        exact absurd found (by simp)
      · exact step found leads pathEq

theorem before_of_mem (sound : Sound tree m) {start lower : Bytes}
    (descends : tree.Descends lower path) (member : hash ∈ tree.genesis.hash :: path)
    (reached : lower = start ∨ m.Before start lower)
    (stored : (AList.lookup lower m.blocks).isSome) :
    hash = lower ∨ m.Before start hash := by
  induction descends with
  | root => exact .inl (List.mem_singleton.mp member)
  | @child lower path above leads induction =>
      obtain ⟨b, found⟩ := Option.isSome_iff_exists.mp stored
      obtain rfl := sound.recorded.named found
      obtain ⟨contained, parentStored⟩ := sound.parent_stored found above
      have parentBefore : m.Before start b.prevHash := by
        rcases reached with rfl | before
        · exact .parent found
        · exact .step before found
      have parentEq : tree.parentHash b.hash = b.prevHash := congrArg _ contained.blockOf_hash
      rw [parentEq] at induction
      have inside : hash = b.hash ∨ hash ∈ tree.genesis.hash :: path := by
        rcases List.mem_cons.mp member with isGenesis | inPath
        · exact .inr (isGenesis ▸ List.mem_cons_self)
        · rcases List.mem_append.mp inPath with inPath | last
          · exact .inr (List.mem_cons_of_mem _ inPath)
          · exact .inl (List.mem_singleton.mp last)
      rcases inside with isLast | inside
      · exact .inl isLast
      · rcases induction inside (.inr parentBefore) parentStored with rfl | before
        · exact .inr parentBefore
        · exact .inr before

/-- The blocks before a stored block are those of its ancestry. -/
theorem before_iff (sound : Sound tree m) {start : Bytes} (descends : tree.Descends start path)
    (startStored : (AList.lookup start m.blocks).isSome)
    (stored : (AList.lookup hash m.blocks).isSome) :
    m.Before start hash ↔ hash ∈ tree.genesis.hash :: path ∧ hash ≠ start := by
  constructor
  · intro before
    rcases sound.descends_of_before descends before with rfl | ⟨upTo, later, leads, rfl, nonempty⟩
    · rw [sound.before] at stored
      exact absurd stored (by simp)
    · constructor
      · rw [← List.cons_append]
        exact List.mem_append_left _ leads.self_mem
      · rintro rfl
        have same := leads.unique descends
        exact nonempty (List.self_eq_append_right.mp same)
  · rintro ⟨member, different⟩
    exact (sound.before_of_mem descends member (.inl rfl) startStored).resolve_left different

theorem behind_iff (sound : Sound tree m) (descends : tree.Descends m.currentBlock.hash path)
    (stored : (AList.lookup hash m.blocks).isSome) :
    m.Behind hash ↔ hash ∈ tree.genesis.hash :: path ∧ hash ≠ m.currentBlock.hash :=
  sound.before_iff descends (Option.isSome_of_eq_some sound.recorded.current) stored

end Sound

end ChainManager

end Thelonious
