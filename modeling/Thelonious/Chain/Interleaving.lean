import Thelonious.Chain.HeaviestChain

/-!
# Two threads and one chain manager

The miner and the block pool each test a chain and insert it.  `TestChain` and
`insertChain` hold the mutex of the manager, but nothing holds it between them, nor
between the steps of `InsertChain` and `reOrg`.  Whether a chain is a fork is decided
by its test, and the head may have moved when it is inserted.
-/

namespace Thelonious

/-- What a thread does next. -/
inductive Work
  | test
  | insert (chain : List LinkRef)
  | extend (chain : List LinkRef)
  | overtake (chain : List LinkRef)
  | retest (chain : List LinkRef) (oldHead : ChainBlock) (ancestorHash oldHeadHash : Bytes)
  | demote (oldHead : ChainBlock) (ancestorHash : Bytes)
  | finished
deriving DecidableEq

/-- A thread with a chain of its own.  The pool also inserts a chain after a `TDError`, the
miner does not.  `returns` are the calls of `reOrg` that wait for their `InsertChain`. -/
structure Thread where
  pool : Bool
  blocks : List ChainBlock
  work : Work
  fork : Bool
  passed : Bool
  returns : List (ChainBlock × Bytes)
deriving DecidableEq

namespace Thread

def start (pool : Bool) (blocks : List ChainBlock) : Thread :=
  ⟨pool, blocks, .test, false, false, []⟩

def goTo (t : Thread) (work : Work) : Thread := { t with work := work }

/-- The thread after a test. -/
def tested (t : Thread) (fork : Bool) (chain : List LinkRef) (verdict : Verdict) : Thread :=
  let inserts := verdict = .accepted ∨ t.pool ∧ verdict = .tooLight
  { t with
    fork := fork
    passed := verdict ≠ .failed
    work := if inserts then .insert chain else .finished }

/-- The call `reOrg` waits for `InsertChain`. -/
def call (t : Thread) (chain : List LinkRef) (oldHead : ChainBlock) (ancestorHash : Bytes) :
    Thread :=
  { t with work := .insert chain, returns := (oldHead, ancestorHash) :: t.returns }

/-- The end of `InsertChain`. -/
def resume (t : Thread) : Thread :=
  match t.returns with
  | [] => t.goTo .finished
  | (oldHead, ancestorHash) :: rest =>
      { t with work := .demote oldHead ancestorHash, returns := rest }

end Thread

namespace ChainManager

variable {σ : Type}

/-- The next step of a thread. -/
def step (process : ChainManager σ → ChainBlock → ChainBlock → Bool × σ) (m : ChainManager σ)
    (t : Thread) : Option (ChainManager σ × Thread) :=
  match t.work with
  | .test => do
      let (m, chain) := m.newChain t.blocks
      let front ← chain.head?
      let fork := (m.setWorkingChain chain).detectFork (m.links front).block
      let (m, chain, verdict) ← m.testChain process chain
      return (m, t.tested fork chain verdict)
  | .insert chain => do
      let front ← chain.head?
      let branchParent ← m.getBlock (m.links front).block.prevHash
      if m.currentBlock.hash = branchParent.hash then return (m, t.goTo (.extend chain))
      else return (m, t.goTo (.overtake chain))
  | .extend chain => do
      let m ← m.lengthen chain
      return (m, t.resume)
  | .overtake chain => do
      let back ← chain.getLast?
      let td ← (m.links back).td
      if m.td < td then do
        let (reverted, bchain, oldHead, ancestorHash) ← m.revert chain
        return (reverted, t.goTo (.retest bchain oldHead ancestorHash m.currentBlockHash))
      else return (m, t.resume)
  | .retest chain oldHead ancestorHash oldHeadHash => do
      let (m, chain, verdict) ← m.testChain process chain
      if verdict = .accepted then return (m, t.call chain oldHead ancestorHash)
      else return (m.setHead oldHead oldHeadHash, t.resume)
  | .demote oldHead ancestorHash => do
      let m ← m.demote process oldHead ancestorHash
      return (m, t.resume)
  | .finished => none

/-- The manager and the threads. -/
structure Race (σ : Type) where
  manager : ChainManager σ
  threads : List Thread

/-- The threads take their steps in the order of the schedule. -/
def Race.run (process : ChainManager σ → ChainBlock → ChainBlock → Bool × σ) (r : Race σ) :
    List Nat → Option (Race σ)
  | [] => some r
  | i :: later => do
      let t ← r.threads[i]?
      let (m, t) ← r.manager.step process t
      Race.run process ⟨m, r.threads.set i t⟩ later

variable {m after : ChainManager σ} {tree : BlockTree} {t t' : Thread}
variable {process : ChainManager σ → ChainBlock → ChainBlock → Bool × σ}

/-! ### An `InsertChain` that nothing interrupts -/

/-- The steps of one thread without those of another between them. -/
def Steps (process : ChainManager σ → ChainBlock → ChainBlock → Bool × σ) :
    ChainManager σ × Thread → ChainManager σ × Thread → Prop :=
  Relation.ReflTransGen fun before next => step process before.1 before.2 = some next

theorem Steps.next (steps : Steps process (m, t) (after, t')) (finished : t'.work = .finished)
    (unfinished : t.work ≠ .finished) :
    ∃ next, step process m t = some next ∧ Steps process next (after, t') := by
  rcases steps.cases_head with same | ⟨next, stepped, steps⟩
  · cases same
    exact absurd finished unfinished
  · exact ⟨next, stepped, steps⟩

theorem Steps.stop (steps : Steps process (m, t) (after, t')) (finished : t.work = .finished) :
    after = m ∧ t' = t := by
  rcases steps.cases_head with same | ⟨next, stepped, -⟩
  · cases same
    exact ⟨rfl, rfl⟩
  · rw [step, finished] at stepped
    exact absurd stepped (by simp)

variable {chain : List LinkRef}

theorem Steps.extend (steps : Steps process (m, t) (after, t')) (finished : t'.work = .finished)
    (work : t.work = .extend chain) :
    ∃ longer, m.lengthen chain = some longer ∧ Steps process (longer, t.resume) (after, t') := by
  obtain ⟨next, stepped, steps⟩ := steps.next finished (by simp [work])
  simp only [step, work] at stepped
  obtain ⟨longer, lengthened, eq⟩ := Option.bind_eq_some_iff.mp stepped
  cases eq
  exact ⟨longer, lengthened, steps⟩

/-- The decision of `InsertChain`. -/
theorem Steps.insert (steps : Steps process (m, t) (after, t')) (finished : t'.work = .finished)
    (work : t.work = .insert chain) :
    ∃ front branchParent, chain.head? = some front ∧
      m.getBlock (m.links front).block.prevHash = some branchParent ∧
      ((m.currentBlock.hash = branchParent.hash ∧
          Steps process (m, t.goTo (.extend chain)) (after, t')) ∨
        (m.currentBlock.hash ≠ branchParent.hash ∧
          Steps process (m, t.goTo (.overtake chain)) (after, t'))) := by
  obtain ⟨next, stepped, steps⟩ := steps.next finished (by simp [work])
  simp only [step, work] at stepped
  obtain ⟨front, frontEq, stepped⟩ := Option.bind_eq_some_iff.mp stepped
  obtain ⟨branchParent, parentEq, stepped⟩ := Option.bind_eq_some_iff.mp stepped
  refine ⟨front, branchParent, frontEq, parentEq, ?_⟩
  split at stepped
  · rename_i same
    cases stepped
    exact .inl ⟨same, steps⟩
  · rename_i different
    cases stepped
    exact .inr ⟨different, steps⟩

theorem Steps.overtake (steps : Steps process (m, t) (after, t')) (finished : t'.work = .finished)
    (work : t.work = .overtake chain) :
    ∃ back td, chain.getLast? = some back ∧ (m.links back).td = some td ∧
      ((m.td < td ∧ ∃ reverted bchain oldHead ancestorHash,
          m.revert chain = some (reverted, bchain, oldHead, ancestorHash) ∧
          Steps process (reverted,
            t.goTo (.retest bchain oldHead ancestorHash m.currentBlockHash)) (after, t')) ∨
        (td ≤ m.td ∧ Steps process (m, t.resume) (after, t'))) := by
  obtain ⟨next, stepped, steps⟩ := steps.next finished (by simp [work])
  simp only [step, work] at stepped
  obtain ⟨back, backEq, stepped⟩ := Option.bind_eq_some_iff.mp stepped
  obtain ⟨td, tdEq, stepped⟩ := Option.bind_eq_some_iff.mp stepped
  refine ⟨back, td, backEq, tdEq, ?_⟩
  split at stepped
  · rename_i heavier
    obtain ⟨⟨reverted, bchain, oldHead, ancestorHash⟩, revertEq, stepped⟩ :=
      Option.bind_eq_some_iff.mp stepped
    cases stepped
    exact .inl ⟨heavier, reverted, bchain, oldHead, ancestorHash, revertEq, steps⟩
  · rename_i lighter
    cases stepped
    exact .inr ⟨not_lt.mp lighter, steps⟩

theorem Steps.retest {oldHead : ChainBlock} {ancestorHash hash : Bytes}
    (steps : Steps process (m, t) (after, t')) (finished : t'.work = .finished)
    (work : t.work = .retest chain oldHead ancestorHash hash) :
    ∃ tested left verdict, m.testChain process chain = some (tested, left, verdict) ∧
      ((verdict = .accepted ∧
          Steps process (tested, t.call left oldHead ancestorHash) (after, t')) ∨
        (verdict ≠ .accepted ∧ Steps process (tested.setHead oldHead hash, t.resume)
          (after, t'))) := by
  obtain ⟨next, stepped, steps⟩ := steps.next finished (by simp [work])
  simp only [step, work] at stepped
  obtain ⟨⟨tested, left, verdict⟩, testedEq, stepped⟩ := Option.bind_eq_some_iff.mp stepped
  refine ⟨tested, left, verdict, testedEq, ?_⟩
  dsimp only at stepped
  split at stepped
  · rename_i accepted
    cases stepped
    exact .inl ⟨accepted, steps⟩
  · rename_i rejected
    cases stepped
    exact .inr ⟨rejected, steps⟩

theorem Steps.demote {oldHead : ChainBlock} {ancestorHash : Bytes}
    (steps : Steps process (m, t) (after, t')) (finished : t'.work = .finished)
    (work : t.work = .demote oldHead ancestorHash) :
    ∃ moved, m.demote process oldHead ancestorHash = some moved ∧
      Steps process (moved, t.resume) (after, t') := by
  obtain ⟨next, stepped, steps⟩ := steps.next finished (by simp [work])
  simp only [step, work] at stepped
  obtain ⟨moved, demoted, eq⟩ := Option.bind_eq_some_iff.mp stepped
  cases eq
  exact ⟨moved, demoted, steps⟩

/-- Without interruption the steps of `InsertChain` are one. -/
theorem insertChain_of_steps (sound : Sound tree m) (judges : Judges process tree) {back : LinkRef}
    (backEq : chain.getLast? = some back) (below : back < m.nextLink)
    (work : t.work = .insert chain) (outermost : t.returns = [])
    (steps : Steps process (m, t) (after, t')) (finished : t'.work = .finished) :
    m.insertChain process chain = some after ∧ t' = t.goTo .finished := by
  have resumed (work : Work) : (t.goTo work).resume = t.goTo .finished := by
    simp [Thread.resume, Thread.goTo, outermost]
  obtain ⟨front, branchParent, frontEq, parentEq, ⟨same, steps⟩ | ⟨different, steps⟩⟩ :=
    steps.insert finished work
  · obtain ⟨longer, lengthened, steps⟩ := steps.extend finished rfl
    rw [resumed] at steps
    obtain ⟨rfl, rfl⟩ := steps.stop rfl
    have onHead : OnHead m chain front back branchParent := ⟨frontEq, backEq, parentEq, same⟩
    exact ⟨(onHead.insertChainWith _).trans lengthened, rfl⟩
  · obtain ⟨last, td, lastEq, tdEq, outcome⟩ := steps.overtake finished rfl
    obtain rfl : last = back := Option.some.inj (lastEq.symm.trans backEq)
    rw [ChainManager.insertChain, insertChainWith_forks frontEq backEq parentEq different tdEq]
    rcases outcome with ⟨heavier, reverted, bchain, oldHead, ancestorHash, revertEq, steps⟩ |
      ⟨lighter, steps⟩
    · rw [if_pos heavier]
      obtain ⟨tested, left, verdict, testedEq, ⟨rfl, steps⟩ | ⟨rejected, steps⟩⟩ :=
        steps.retest finished rfl
      · obtain ⟨path, ancestor, allocated, reverts⟩ := reverts_of_revert revertEq
        obtain ⟨first, _, parent, inserted, onHead, lengthened, -⟩ :=
          sound.exists_inserted judges (last_lt backEq below) reverts testedEq
        rw [reOrg_accepted revertEq testedEq ((onHead.insertChainWith _).trans lengthened)]
        -- the inner call finds the head where `reOrg` has put it
        obtain ⟨other, otherParent, otherEq, otherParentEq, outcome⟩ := steps.insert finished rfl
        obtain rfl : other = first := Option.some.inj (otherEq.symm.trans onHead.head_eq)
        obtain rfl : otherParent = parent :=
          Option.some.inj (otherParentEq.symm.trans onHead.parent_eq)
        rcases outcome with ⟨-, steps⟩ | ⟨moved, -⟩
        · obtain ⟨longer, lengthenedAgain, steps⟩ := steps.extend finished rfl
          obtain rfl : longer = inserted :=
            Option.some.inj (lengthenedAgain.symm.trans lengthened)
          obtain ⟨last, demoted, steps⟩ := steps.demote finished rfl
          have resumedLast : (((t.goTo (.overtake chain)).goTo
              (.retest bchain oldHead ancestorHash m.currentBlockHash)).call left oldHead
                ancestorHash |>.goTo (.extend left)).resume.resume = t.goTo .finished := by
            simp [Thread.resume, Thread.goTo, Thread.call, outermost]
          rw [resumedLast] at steps
          obtain ⟨rfl, rfl⟩ := steps.stop rfl
          exact ⟨demoted, rfl⟩
        · exact absurd onHead.current_eq moved
      · have resumedLast : ((t.goTo (.overtake chain)).goTo
            (.retest bchain oldHead ancestorHash m.currentBlockHash)).resume =
              t.goTo .finished := by
          simp [Thread.resume, Thread.goTo, outermost]
        rw [resumedLast] at steps
        obtain ⟨rfl, rfl⟩ := steps.stop rfl
        exact ⟨reOrg_rejected revertEq testedEq rejected, rfl⟩
    · rw [if_neg (not_lt.mpr lighter)]
      rw [resumed] at steps
      obtain ⟨rfl, rfl⟩ := steps.stop rfl
      exact ⟨rfl, rfl⟩

/-! ### What one thread leaves to the others -/

/-- The links stay as they are, and no block is lost. -/
structure Keeps (m after : ChainManager σ) : Prop where
  nextLink_le : m.nextLink ≤ after.nextLink
  links_eq {l : LinkRef} : l < m.nextLink → after.links l = m.links l
  stored {hash : Bytes} : (AList.lookup hash m.blocks).isSome →
    (AList.lookup hash after.blocks).isSome
  known {hash : Bytes} : m.Known hash → after.Known hash

theorem Keeps.refl (m : ChainManager σ) : Keeps m m := ⟨le_rfl, fun _ => rfl, id, id⟩

theorem Keeps.trans {middle : ChainManager σ} (first : Keeps m middle)
    (second : Keeps middle after) :
    Keeps m after where
  nextLink_le := first.nextLink_le.trans second.nextLink_le
  links_eq below :=
    (second.links_eq (below.trans_le first.nextLink_le)).trans (first.links_eq below)
  stored stored := second.stored (first.stored stored)
  known known := second.known (first.known known)

theorem keeps_testChain {blocks : List ChainBlock} {allocated : ChainManager σ}
    {left : List LinkRef} {verdict : Verdict} (allocates : Allocates m blocks allocated chain)
    (testedEq : allocated.testChain process chain = some (after, left, verdict)) :
    Keeps m after := by
  have touches := (touches_testChain testedEq allocates.nodup).1
  have blocksEq : after.blocks = m.blocks := touches.blocks_eq.trans allocates.blocks_kept
  constructor
  case nextLink_le => exact touches.nextLink_eq ▸ allocates.nextLink_le
  case links_eq =>
    intro l below
    exact (touches.links_eq (allocates.not_mem_of_lt below)).trans (allocates.kept below)
  case stored => exact fun stored => blocksEq ▸ stored
  case known =>
    intro hash known
    rcases known with stored | inTree
    · exact .inl (blocksEq ▸ stored)
    · right
      apply lookup_testChain_isSome testedEq allocates.nodup
      rw [allocates.workingTree_eq]
      exact inTree

theorem keeps_lengthen (lengthened : m.lengthen chain = some after) : Keeps m after := by
  obtain ⟨linksEq, nextLinkEq, treeEq, -⟩ := lengthen_frame lengthened
  have stored {hash : Bytes} : (AList.lookup hash m.blocks).isSome →
      (AList.lookup hash after.blocks).isSome := lookup_lengthen_isSome lengthened
  constructor
  case nextLink_le => exact nextLinkEq.ge
  case links_eq => exact fun _ => by rw [linksEq]
  case stored => exact stored
  case known =>
    intro hash known
    rcases known with before | inTree
    · exact .inl (stored before)
    · exact .inr (treeEq ▸ inTree)

theorem Adopts.keeps {inserted : ChainManager σ} {path : List LinkRef}
    (adopts : Adopts tree m inserted chain path) : Keeps m inserted := by
  constructor
  case nextLink_le => exact adopts.nextLink_le
  case links_eq => exact adopts.links_eq
  case stored => exact adopts.stored_kept
  case known =>
    intro hash known
    rcases known with stored | inTree
    · exact .inl (adopts.stored_kept stored)
    · by_cases moved : ∃ l ∈ path, (m.links l).block.hash = hash
      · obtain ⟨l, member, rfl⟩ := moved
        exact .inl (adopts.adopted l member)
      · right
        rw [adopts.workingTree_eq, lookup_forget, if_neg moved]
        exact inTree

/-- A reorganisation to a chain that is heavier loses no block, and stores those of the walk. -/
theorem Sound.keeps_reOrg (sound : Sound tree m)
    (fair : ∀ m block parent, (process m block parent).1 = true ↔ tree.accepted block)
    {path : List LinkRef} {back : LinkRef} (backEq : chain.getLast? = some back)
    (below : back < m.nextLink) (processed : (m.links back).td.isSome)
    (pathEq : m.lineage m.nextLink back = some path)
    (heavier : ∀ hashes, tree.Descends (m.links back).block.hash hashes → m.td < tree.total hashes)
    (reorganised : m.reOrg process chain = some after) :
    Keeps m after ∧ ∀ l ∈ path, (AList.lookup (m.links l).block.hash after.blocks).isSome := by
  obtain ⟨root, rootEq, -⟩ := (ParentForest.isPath_of_pathTo pathEq).root
  obtain ⟨inserted, adopts, demotedEq⟩ :=
    sound.adopts_of_reOrg fair backEq below processed pathEq rootEq heavier reorganised
  obtain ⟨blocks, allocated, moved, left, verdict, -, allocates, retestedEq⟩ :=
    demote_cases demotedEq
  have demoted := keeps_testChain allocates retestedEq
  exact ⟨adopts.keeps.trans demoted, fun l member => demoted.stored (adopts.adopted l member)⟩

/-! ### Orderly runs -/

/-- A chain that can be tested: hash-linked, of blocks that the working tree does not have; one
that the miner puts on top of the current block adds to the total difficulty. -/
structure TestFits (tree : BlockTree) (m : ChainManager σ) (t : Thread) : Prop where
  proper : Proper tree m t.blocks
  adds : t.pool = false → ∀ first ∈ t.blocks.head?, first.prevHash = m.currentBlock.hash →
    0 < (t.blocks.map ChainBlock.weight).sum

/-- A tested chain that can be inserted.  The parent of a fork is still not the current block,
and if the fork is recorded as heavier, then it is heavier.  Another chain is still on
top of the current block, or it is a single block that makes a heavier chain. -/
structure InsertFits (tree : BlockTree) (m : ChainManager σ) (t : Thread) (chain : List LinkRef) :
    Prop where
  fork : t.fork = true → (∀ first ∈ t.blocks.head?, first.prevHash ≠ m.currentBlock.hash) ∧
    ∀ back ∈ chain.getLast?, ∀ td ∈ (m.links back).td, m.td < td →
      ∀ last ∈ t.blocks.getLast?, ∀ path, tree.Descends last.hash path → m.td < tree.total path
  extension : t.fork = false → (∀ first ∈ t.blocks.head?, first.prevHash = m.currentBlock.hash) ∨
    ∃ b, t.blocks = [b] ∧ ∀ path, tree.Descends b.hash path → m.td < tree.total path

/-- Runs in which each call of `InsertChain` fits and is not interrupted. -/
inductive OrderlyRun (process : ChainManager σ → ChainBlock → ChainBlock → Bool × σ)
    (tree : BlockTree) (r : Race σ) : Race σ → Prop
  | start : OrderlyRun process tree r r
  | test {m after : ChainManager σ} {threads : List Thread} {i : Nat} {t t' : Thread} :
      OrderlyRun process tree r ⟨m, threads⟩ → threads[i]? = some t → t.work = .test →
      TestFits tree m t → step process m t = some (after, t') →
      OrderlyRun process tree r ⟨after, threads.set i t'⟩
  | insert {m after : ChainManager σ} {threads : List Thread} {i : Nat} {t t' : Thread}
      {chain : List LinkRef} :
      OrderlyRun process tree r ⟨m, threads⟩ → threads[i]? = some t → t.work = .insert chain →
      InsertFits tree m t chain → Steps process (m, t) (after, t') → t'.work = .finished →
      OrderlyRun process tree r ⟨after, threads.set i t'⟩

/-- A chain that has passed its test and waits to be inserted. -/
structure Waiting (tree : BlockTree) (m : ChainManager σ) (t : Thread) (chain : List LinkRef) :
    Prop where
  below : ∀ l ∈ chain, l < m.nextLink
  blocks_eq : m.blocksOf chain = t.blocks
  linked : HashLinked t.blocks
  processed : ∀ l ∈ chain, (m.links l).td.isSome
  fork : t.fork = true → ∀ b ∈ t.blocks, m.Known b.hash
  extension : t.fork = false → (∀ l ∈ chain, Exact tree m l ∧ (m.links l).parent = none) ∧
    ∀ first ∈ t.blocks.head?, (AList.lookup first.prevHash m.blocks).isSome

theorem Waiting.mono (waiting : Waiting tree m t chain) (keeps : Keeps m after) :
    Waiting tree after t chain := by
  have linkEq : ∀ l ∈ chain, after.links l = m.links l := fun l member =>
    keeps.links_eq (waiting.below l member)
  constructor
  case below => exact fun l member => (waiting.below l member).trans_le keeps.nextLink_le
  case blocks_eq =>
    rw [← waiting.blocks_eq]
    exact List.map_congr_left fun l member => congrArg Link.block (linkEq l member)
  case linked => exact waiting.linked
  case processed =>
    intro l member
    rw [linkEq l member]
    exact waiting.processed l member
  case fork => exact fun fork b member => keeps.known (waiting.fork fork b member)
  case extension =>
    intro extending
    obtain ⟨exactly, first⟩ := waiting.extension extending
    refine ⟨fun l member => ?_, fun b bEq => keeps.stored (first b bEq)⟩
    rw [Exact, linkEq l member]
    exact exactly l member

/-- What holds for a thread between its calls. -/
structure Fits (tree : BlockTree) (m : ChainManager σ) (t : Thread) : Prop where
  returns : t.returns = []
  work : t.work = .test ∨ (∃ chain, t.work = .insert chain ∧ Waiting tree m t chain) ∨
    t.work = .finished ∧ (t.passed = true → ∀ b ∈ t.blocks, m.Known b.hash)

theorem Fits.mono (fits : Fits tree m t) (keeps : Keeps m after) : Fits tree after t := by
  refine ⟨fits.returns, ?_⟩
  rcases fits.work with work | ⟨chain, work, waiting⟩ | ⟨work, known⟩
  · exact .inl work
  · exact .inr (.inl ⟨chain, work, waiting.mono keeps⟩)
  · exact .inr (.inr ⟨work, fun passed b member => keeps.known (known passed b member)⟩)

/-- Whether a proper chain is a fork. -/
theorem Sound.detectFork_eq (sound : Sound tree m) {blocks : List ChainBlock} {first : ChainBlock}
    (proper : Proper tree m blocks) (known : m.Known first.prevHash) :
    ((m.newChain blocks).1.setWorkingChain (m.newChain blocks).2).detectFork first =
      decide (first.prevHash ≠ m.currentBlock.hash) := by
  have allocates := allocates_newChain m blocks
  rw [Known.detectFork (sound.newLinks proper allocates).sound.recorded,
    allocates.currentBlock_kept]
  rw [Known, allocates.blocks_kept, allocates.workingTree_eq]
  exact known

/-- A chain that has passed its test waits to be inserted. -/
theorem Sound.waiting_of_tested (sound : Sound tree m) (judges : Judges process tree)
    (proper : Proper tree m t.blocks) {tested : ChainManager σ} {left : List LinkRef}
    {verdict : Verdict} {first : ChainBlock} (firstEq : t.blocks.head? = some first)
    (testedEq : (m.newChain t.blocks).1.testChain process (m.newChain t.blocks).2 =
      some (tested, left, verdict)) (passed : verdict ≠ .failed) :
    Waiting tree tested (t.tested (decide (first.prevHash ≠ m.currentBlock.hash)) left verdict)
      left := by
  have allocates := allocates_newChain m t.blocks
  have links := sound.newLinks proper allocates
  have touches := (touches_testChain testedEq allocates.nodup).1
  have known := sound.known_of_tested proper firstEq testedEq passed
  have extended (onTop) := sound.extends_on_top proper firstEq testedEq passed onTop
  have forked (away) := links.forked allocates sound judges firstEq known away testedEq passed
  obtain rfl := links.left_eq judges testedEq
  constructor
  case below =>
    intro l member
    rw [touches.nextLink_eq]
    exact links.fresh.below l member
  case blocks_eq =>
    exact (List.map_congr_left fun l _ => touches.block_eq l).trans allocates.blocks_eq
  case linked => exact proper.linked
  case processed =>
    intro l member
    by_cases onTop : first.prevHash = m.currentBlock.hash
    · obtain ⟨path, -, tdEq⟩ := (extended onTop).exactly l member
      exact Option.isSome_of_eq_some tdEq
    · exact Option.isSome_of_eq_some ((forked onTop).td_eq l member)
  case fork =>
    intro fork b member
    have inChain : b ∈ (m.newChain t.blocks).1.blocksOf (m.newChain t.blocks).2 := by
      rw [blocksOf, allocates.blocks_eq]
      exact member
    obtain ⟨l, lMember, rfl⟩ := List.mem_map.mp inChain
    exact .inr (Option.isSome_of_eq_some ((forked (of_decide_eq_true fork)).found l lMember))
  case extension =>
    intro extending
    have onTop := not_not.mp (of_decide_eq_false extending)
    refine ⟨fun l member => ⟨(extended onTop).exactly l member, ?_⟩, fun b bEq => ?_⟩
    · rw [(extended onTop).parent_eq]
      exact (allocates.blank member).2
    · obtain rfl : first = b := Option.some.inj (firstEq.symm.trans bEq)
      rw [onTop, touches.blocks_eq, allocates.blocks_kept, sound.recorded.current]
      rfl

/-- A test that returns without another error either adds the chain to the tree or leaves it
to `InsertChain`; the miner stops after a `TDError`. -/
theorem Sound.test_step (sound : Sound tree m) (current : Current tree m)
    (judges : Judges process tree) (testFits : TestFits tree m t) (work : t.work = .test)
    (returns : t.returns = []) (stepped : step process m t = some (after, t')) :
    (Sound tree after ∧ Current tree after) ∧ Keeps m after ∧ Fits tree after t' := by
  simp only [step, work] at stepped
  obtain ⟨front, frontEq, stepped⟩ := Option.bind_eq_some_iff.mp stepped
  obtain ⟨⟨tested, left, verdict⟩, testedEq, stepped⟩ := Option.bind_eq_some_iff.mp stepped
  cases stepped
  have proper := testFits.proper
  have allocates := allocates_newChain m t.blocks
  have links := sound.newLinks proper allocates
  have touches := (touches_testChain testedEq allocates.nodup).1
  refine ⟨⟨links.sound.testChain judges links.fresh links.linked testedEq, ?_⟩,
    keeps_testChain allocates testedEq, returns, ?_⟩
  · exact current.of_canonical_eq (touches.canonical_eq.trans allocates.canonical_eq)
  by_cases failed : verdict = .failed
  · subst failed
    exact .inr (.inr ⟨by simp [Thread.tested], by simp [Thread.tested]⟩)
  have firstEq := congrArg List.head? allocates.blocks_eq
  rw [List.head?_map, frontEq] at firstEq
  replace firstEq := firstEq.symm
  have waiting := sound.waiting_of_tested judges proper firstEq testedEq failed
  rw [sound.detectFork_eq proper (sound.known_of_tested proper firstEq testedEq failed)]
  by_cases inserts : verdict = .accepted ∨ t.pool ∧ verdict = .tooLight
  · exact .inr (.inl ⟨left, by simp [Thread.tested, inserts], waiting⟩)
  · refine .inr (.inr ⟨by simp [Thread.tested, inserts], fun _ => waiting.fork ?_⟩)
    obtain ⟨rejected, notPool⟩ := not_or.mp inserts
    refine decide_eq_true fun onTop => ?_
    have miner : t.pool = false := by
      cases verdict with
      | accepted => exact absurd rfl rejected
      | tooLight => simpa using notPool
      | failed => exact absurd rfl failed
    exact rejected (sound.accepted_on_top proper firstEq testedEq failed current onTop
      (testFits.adds miner _ firstEq onTop))

/-- An `InsertChain` that fits loses no block, and its own blocks are known. -/
theorem Sound.insert_step (sound : Sound tree m) (current : Current tree m)
    (fair : ∀ m block parent, (process m block parent).1 = true ↔ tree.accepted block)
    (waiting : Waiting tree m t chain) (fits : InsertFits tree m t chain)
    (inserted : m.insertChain process chain = some after) :
    (Sound tree after ∧ Current tree after) ∧ Keeps m after ∧
    ∀ b ∈ t.blocks, after.Known b.hash := by
  have judges : Judges process tree := judges_of_fair fair
  obtain ⟨front, back, branchParent, frontEq, backEq, parentEq, outcome⟩ :=
    insertChainWith_cases inserted
  have frontMember := List.mem_of_mem_head? frontEq
  have backMember := List.mem_of_getLast? backEq
  have below := waiting.below back backMember
  have firstEq := congrArg List.head? waiting.blocks_eq
  rw [blocksOf, List.head?_map, frontEq] at firstEq
  have lastEq := congrArg List.getLast? waiting.blocks_eq
  rw [blocksOf, List.getLast?_map, backEq] at lastEq
  have parentHash := sound.recorded.hash_of_getBlock parentEq
  have reorganises {path : List LinkRef} (pathEq : m.lineage m.nextLink back = some path)
      (heavier : ∀ hashes, tree.Descends (m.links back).block.hash hashes →
        m.td < tree.total hashes)
      (reorganised : m.reOrg process chain = some after) :=
    And.intro (sound.reOrg current judges (fun last lastEq => waiting.below last
        (List.mem_of_getLast? lastEq)) reorganised)
      (sound.keeps_reOrg fair backEq below (waiting.processed back backMember) pathEq heavier
        reorganised)
  cases isFork : t.fork with
  | true =>
      obtain ⟨away, heavier⟩ := fits.fork isFork
      have known := waiting.fork isFork
      rcases outcome with ⟨same, -⟩ | ⟨-, td, tdEq, ⟨recordedHeavier, reorganised⟩ | ⟨-, rfl⟩⟩
      · exact absurd (parentHash.symm.trans same.symm) (away _ firstEq.symm)
      · obtain ⟨path, pathEq⟩ := sound.fits.exists_lineage below
        obtain ⟨sounds, keeps, -⟩ := reorganises pathEq
          (heavier back backEq td tdEq recordedHeavier _ lastEq.symm) reorganised
        exact ⟨sounds, keeps, fun b member => keeps.known (known b member)⟩
      · exact ⟨⟨sound, current⟩, .refl _, known⟩
  | false =>
      obtain ⟨exactly, firstStored⟩ := waiting.extension isFork
      rcases outcome with ⟨same, lengthened⟩ | ⟨different, td, tdEq, outcome⟩
      · refine ⟨sound.lengthen waiting.below (waiting.blocks_eq ▸ waiting.linked) ?_
          (fun l member => (exactly l member).1) ?_ lengthened, keeps_lengthen lengthened, ?_⟩
        · intro l lEq
          obtain rfl : front = l := Option.some.inj (frontEq.symm.trans lEq)
          exact firstStored _ firstEq.symm
        · rintro rfl
          exact absurd frontMember List.not_mem_nil
        · intro b member
          rw [← waiting.blocks_eq] at member
          obtain ⟨l, lMember, rfl⟩ := List.mem_map.mp member
          exact .inl (lengthen_stores lengthened l lMember)
      · rcases fits.extension isFork with onTop | ⟨b, blocksEq, heavier⟩
        · have onHead := onTop _ firstEq.symm
          exact absurd (onHead.symm.trans parentHash.symm) different
        · obtain rfl : (m.links back).block = b := by simpa [blocksEq] using lastEq
          obtain ⟨⟨hashes, descends, exactTd⟩, isRoot⟩ := exactly back backMember
          have tdTotal : td = tree.total hashes := Option.some.inj (tdEq.symm.trans exactTd)
          rcases outcome with ⟨-, reorganised⟩ | ⟨lighter, -⟩
          · have pathEq : m.lineage m.nextLink back = some [back] := by
              obtain ⟨path, pathEq⟩ := sound.fits.exists_lineage below
              rw [pathEq, (ParentForest.isPath_of_pathTo pathEq).unique (.root_single isRoot)]
            obtain ⟨sounds, keeps, stored⟩ := reorganises pathEq heavier reorganised
            refine ⟨sounds, keeps, fun b member => ?_⟩
            rw [blocksEq] at member
            exact List.mem_singleton.mp member ▸ .inl (stored back List.mem_cons_self)
          · exact absurd lighter (not_le.mpr (tdTotal ▸ heavier hashes descends))

theorem OrderlyRun.fits {r now : Race σ}
    (fair : ∀ m block parent, (process m block parent).1 = true ↔ tree.accepted block)
    (sound : Sound tree r.manager) (current : Current tree r.manager)
    (starts : ∀ t ∈ r.threads, t = .start t.pool t.blocks) (run : OrderlyRun process tree r now) :
    (Sound tree now.manager ∧ Current tree now.manager) ∧
      ∀ t ∈ now.threads, Fits tree now.manager t := by
  have judges : Judges process tree := judges_of_fair fair
  induction run with
  | start =>
      refine ⟨⟨sound, current⟩, fun t member => ?_⟩
      rw [starts t member]
      exact ⟨rfl, .inl rfl⟩
  | @test m after threads i t t' _ found work testFits stepped induction =>
      obtain ⟨⟨sound, current⟩, fits⟩ := induction
      have own := fits t (List.mem_of_getElem? found)
      obtain ⟨sounds, keeps, ownAfter⟩ :=
        sound.test_step current judges testFits work own.returns stepped
      refine ⟨sounds, fun other member => ?_⟩
      rcases List.mem_or_eq_of_mem_set member with member | rfl
      · exact (fits other member).mono keeps
      · exact ownAfter
  | @insert m after threads i t t' chain _ found work insertFits steps finished induction =>
      obtain ⟨⟨sound, current⟩, fits⟩ := induction
      have own := fits t (List.mem_of_getElem? found)
      have waiting : Waiting tree m t chain := by
        rcases own.work with other | ⟨chain', other, waiting⟩ | ⟨other, -⟩
        · exact absurd (work.symm.trans other) (by simp)
        · obtain rfl : chain = chain' := Work.insert.inj (work.symm.trans other)
          exact waiting
        · exact absurd (work.symm.trans other) (by simp)
      obtain ⟨front, -, frontEq, -⟩ := steps.insert finished work
      obtain ⟨back, backEq⟩ := exists_getLast?_of_head? frontEq
      obtain ⟨inserted, rfl⟩ := insertChain_of_steps sound judges backEq
        (waiting.below back (List.mem_of_getLast? backEq)) work own.returns steps finished
      obtain ⟨sounds, keeps, known⟩ := sound.insert_step current fair waiting insertFits inserted
      refine ⟨sounds, fun other member => ?_⟩
      rcases List.mem_or_eq_of_mem_set member with member | rfl
      · exact (fits other member).mono keeps
      · exact ⟨own.returns, .inr (.inr ⟨rfl, fun _ => known⟩)⟩

/-! ### The blocks of finished threads -/

/-- In an orderly run of any threads, the blocks of a thread that has finished after a test
without another error are found. -/
theorem no_tested_block_lost (process : ChainManager σ → ChainBlock → ChainBlock → Bool × σ)
    (tree : BlockTree)
    (fair : ∀ m block parent, (process m block parent).1 = true ↔ tree.accepted block)
    (m : ChainManager σ) (run : ProperRun process tree m) (threads : List Thread)
    (starts : ∀ t ∈ threads, t = .start t.pool t.blocks) (now : Race σ)
    (orderly : OrderlyRun process tree ⟨m, threads⟩ now) (t : Thread) (member : t ∈ now.threads)
    (finished : t.work = .finished) (passed : t.passed = true) :
    ∀ b ∈ t.blocks, (now.manager.getBlock b.hash).isSome := by
  have judges : Judges process tree := judges_of_fair fair
  obtain ⟨sound, current⟩ := run.sound judges
  have fits := (orderly.fits fair sound current starts).2 t member
  intro b bMember
  rcases fits.work with other | ⟨chain, other, -⟩ | ⟨-, known⟩
  · exact absurd (finished.symm.trans other) (by simp)
  · exact absurd (finished.symm.trans other) (by simp)
  · obtain ⟨found, foundEq⟩ := (known passed b bMember).exists_getBlock
    exact Option.isSome_of_eq_some foundEq

/-- The miner extends the trunk while the pool adds the twig to the tree. -/
theorem no_tested_block_lost_twig : ∃ m now,
    (boot origin ()).present acceptAll [trunk] = some m ∧
      OrderlyRun acceptAll sampleTree ⟨m, [.start false [highLeaf], .start true [twig]]⟩ now ∧
      (now.threads.map fun t => (t.work, t.passed)) = [(.finished, true), (.finished, true)] ∧
      ∀ t ∈ now.threads, ∀ b ∈ t.blocks, (now.manager.getBlock b.hash).isSome := by
  obtain ⟨m, presented, properRun⟩ := exists_trunk_round
  let miner : Work → Bool → Thread :=
    fun work passed => ⟨false, [highLeaf], work, false, passed, []⟩
  let pool : Work → Bool → Bool → Thread := fun work fork passed =>
    ⟨true, [twig], work, fork, passed, []⟩
  have values : (((boot origin ()).present acceptAll [trunk]).bind fun m =>
      (step acceptAll m (miner .test false)).bind fun a =>
      (step acceptAll a.1 (pool .test false false)).bind fun b =>
      (step acceptAll b.1 a.2).bind fun c => (step acceptAll c.1 c.2).bind fun d =>
      (step acceptAll d.1 b.2).bind fun e => (step acceptAll e.1 e.2).map fun f =>
        (decide (AList.lookup highLeaf.hash m.workingTree = none ∧
          AList.lookup twig.hash a.1.workingTree = none ∧
          highLeaf.prevHash = b.1.currentBlock.hash ∧ twig.prevHash ≠ d.1.currentBlock.hash ∧
          ∃ td, (d.1.links 2).td = some td ∧ td ≤ d.1.td), a.2, b.2, d.2, f.2)) =
      some (true, miner (.insert [1]) true, pool (.insert [2]) true true, miner .finished true,
        pool .finished true true) := by
    decide +kernel
  obtain ⟨m', presented', values⟩ := Option.bind_eq_some_iff.mp values
  obtain rfl : m' = m := Option.some.inj (presented'.symm.trans presented)
  obtain ⟨⟨m1, t1⟩, step1, values⟩ := Option.bind_eq_some_iff.mp values
  obtain ⟨⟨m2, t2⟩, step2, values⟩ := Option.bind_eq_some_iff.mp values
  obtain ⟨⟨m3, t3⟩, step3, values⟩ := Option.bind_eq_some_iff.mp values
  obtain ⟨⟨m4, t4⟩, step4, values⟩ := Option.bind_eq_some_iff.mp values
  obtain ⟨⟨m5, t5⟩, step5, values⟩ := Option.bind_eq_some_iff.mp values
  obtain ⟨⟨m6, t6⟩, step6, values⟩ := Option.map_eq_some_iff.mp values
  simp only [Prod.mk.injEq, decide_eq_true_eq] at values
  obtain ⟨⟨leafNew, twigNew, onTop, away, td, tdEq, lighter⟩, rfl, rfl, rfl, rfl⟩ := values
  have minerTested :
      OrderlyRun acceptAll sampleTree ⟨m', [miner .test false, pool .test false false]⟩
      ⟨m1, [miner (.insert [1]) true, pool .test false false]⟩ := by
    refine .test (i := 0) .start rfl rfl ⟨⟨.singleton _, ?_, ?_⟩, fun _ _ _ _ => ?_⟩ step1
    · exact fun b member => sampleTree_contains (by simp [List.mem_singleton.mp member])
    · exact fun b member => List.mem_singleton.mp member ▸ leafNew
    · exact (by decide +kernel : 0 < ([highLeaf].map ChainBlock.weight).sum)
  have poolTested :
      OrderlyRun acceptAll sampleTree ⟨m', [miner .test false, pool .test false false]⟩
      ⟨m2, [miner (.insert [1]) true, pool (.insert [2]) true true]⟩ := by
    refine .test (i := 1) minerTested rfl rfl ⟨⟨.singleton _, ?_, ?_⟩, fun miner => ?_⟩ step2
    · exact fun b member => sampleTree_contains (by simp [List.mem_singleton.mp member])
    · exact fun b member => List.mem_singleton.mp member ▸ twigNew
    · exact absurd miner (by decide)
  have minerDone : OrderlyRun acceptAll sampleTree ⟨m', [miner .test false, pool .test false false]⟩
      ⟨m4, [miner .finished true, pool (.insert [2]) true true]⟩ := by
    refine .insert (i := 0) poolTested rfl rfl ⟨fun fork => ?_, fun _ => .inl ?_⟩
      (.tail (.single step3) step4) rfl
    · exact absurd fork (by decide)
    · exact fun first firstEq => Option.some.inj firstEq ▸ onTop
  have poolDone : OrderlyRun acceptAll sampleTree ⟨m', [miner .test false, pool .test false false]⟩
      ⟨m6, [miner .finished true, pool .finished true true]⟩ := by
    refine .insert (i := 1) minerDone rfl rfl ⟨fun _ => ⟨?_, ?_⟩, fun extending => ?_⟩
      (.tail (.single step5) step6) rfl
    · exact fun first firstEq => Option.some.inj firstEq ▸ away
    · intro back backEq other otherEq heavier
      obtain rfl : 2 = back := Option.some.inj backEq
      obtain rfl : td = other := Option.some.inj (tdEq.symm.trans otherEq)
      exact absurd heavier (not_lt.mpr lighter)
    · exact absurd extending (by decide)
  refine ⟨m', _, presented, poolDone, rfl, fun t member => ?_⟩
  have done : t.work = .finished ∧ t.passed = true := by
    rcases List.mem_pair.mp member with rfl | rfl
    · exact ⟨rfl, rfl⟩
    · exact ⟨rfl, rfl⟩
  refine no_tested_block_lost acceptAll sampleTree (fun _ _ _ => ⟨fun _ => trivial, fun _ => rfl⟩)
    m'
    properRun _ ?_ _ poolDone t member done.1 done.2
  intro t member
  rcases List.mem_pair.mp member with rfl | rfl
  · rfl
  · rfl

/-- The miner and the pool test their leaves on top of the trunk.  The miner inserts the
heavier one; then the other one is neither on top of the current block nor heavier, and
it was not a fork when it was tested. -/
theorem lowLeaf_lost_between_test_and_insert : ∃ m now,
    (boot origin ()).present acceptAll [trunk] = some m ∧
      Race.run acceptAll ⟨m, [.start false [highLeaf], .start true [lowLeaf]]⟩ [0, 1, 0, 0, 1, 1] =
        some now ∧
      (now.threads.map fun t => (t.work, t.passed)) = [(.finished, true), (.finished, true)] ∧
      now.manager.getBlock lowLeaf.hash = none := by
  have outcome : (((boot origin ()).present acceptAll [trunk]).bind fun m =>
      (Race.run acceptAll ⟨m, [.start false [highLeaf], .start true [lowLeaf]]⟩
        [0, 1, 0, 0, 1, 1]).map fun now => (now.threads.map fun t => (t.work, t.passed),
          now.manager.getBlock lowLeaf.hash)) =
      some ([(.finished, true), (.finished, true)], none) := by decide +kernel
  obtain ⟨m, presented, outcome⟩ := Option.bind_eq_some_iff.mp outcome
  obtain ⟨now, ran, values⟩ := Option.map_eq_some_iff.mp outcome
  obtain ⟨threads, lost⟩ := Prod.mk.inj values
  exact ⟨m, now, presented, ran, threads, lost⟩

end ChainManager

end Thelonious
