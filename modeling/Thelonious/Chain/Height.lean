import Thelonious.Chain.Reorganisation

/-!
# The height of the canonical chain

`currentBlockNumber` counts the blocks that are added.  It follows the number of
the current block as long as every chain that is inserted extends the current
block; a reorganisation goes back to an earlier block and keeps the counter.
-/

namespace Thelonious

/-- The blocks are numbered one by one from `number` on. -/
def NumberedFrom (number : Nat) : List ChainBlock → Prop
  | [] => True
  | block :: blocks => block.number = number + 1 ∧ NumberedFrom block.number blocks

namespace ChainManager

variable {σ : Type} {m after : ChainManager σ}
variable {process : ChainManager σ → ChainBlock → ChainBlock → Bool × σ}
variable {satisfies : Bytes → ChainManager σ → Bool}

/-- The counter is the number of the current block, and so are the numbers in the records
of all blocks. -/
structure Level (m : ChainManager σ) : Prop where
  counter : m.currentBlockNumber = .ofNat m.currentBlock.number
  infos {hash : Bytes} {block : ChainBlock} {info : BlockInfo} :
    AList.lookup hash m.blocks = some block → AList.lookup hash m.infos = some info →
      info.number = .ofNat block.number

namespace Level

theorem boot {genesis : ChainBlock} (first : genesis.number = 0) (processor : σ) :
    Level (boot genesis processor) where
  counter := rfl
  infos {hash block info} found infoFound := by
    have cases := (lookup_blocks_add _ genesis hash).symm.trans found
    split at cases
    · rename_i same
      cases cases
      subst same
      have inserted : some _ = some info := (AList.lookup_insert _).symm.trans infoFound
      cases inserted
      simp [first]
    · exact absurd cases (by simp)

theorem of_canonical_eq (level : Level m) (same : after.canonical = m.canonical) :
    Level after where
  counter := by
    have counterEq : after.currentBlockNumber = m.currentBlockNumber :=
      congrArg CanonicalPart.currentBlockNumber same
    have blockEq : after.currentBlock = m.currentBlock := congrArg CanonicalPart.currentBlock same
    rw [counterEq, blockEq]
    exact level.counter
  infos found infoFound := by
    have blocksEq : after.blocks = m.blocks := congrArg CanonicalPart.blocks same
    have infosEq : after.infos = m.infos := congrArg CanonicalPart.infos same
    exact level.infos (blocksEq ▸ found) (infosEq ▸ infoFound)

theorem add (level : Level m) (td : Nat) {block : ChainBlock}
    (next : block.number = m.currentBlock.number + 1) :
    Level ((m.setTotalDifficulty td).add block) := by
  have positive : block.number ≠ 0 := next ▸ Nat.succ_ne_zero _
  have counterEq : ((m.setTotalDifficulty td).add block).currentBlockNumber =
      .ofNat block.number := by
    have increments : ((m.setTotalDifficulty td).add block).currentBlockNumber =
        m.currentBlockNumber + 1 := if_pos positive
    rw [increments, level.counter, next, UInt64.ofNat_add]
    rfl
  constructor
  case counter => exact counterEq
  case infos =>
    intro hash other info found infoFound
    rw [lookup_blocks_add] at found
    have infosEq : ((m.setTotalDifficulty td).add block).infos = m.infos.insert block.hash
        ⟨((m.setTotalDifficulty td).add block).currentBlockNumber, block.hash, block.prevHash,
          td⟩ :=
      rfl
    rw [infosEq] at infoFound
    split at found
    · rename_i same
      subst same
      rw [AList.lookup_insert] at infoFound
      cases found
      cases infoFound
      exact counterEq
    · rename_i different
      rw [AList.lookup_insert_ne different] at infoFound
      exact level.infos found infoFound

theorem lengthen (level : Level m) {chain : List LinkRef}
    (numbered : NumberedFrom m.currentBlock.number (chain.map fun l => (m.links l).block))
    (lengthened : m.lengthen chain = some after) : Level after := by
  induction chain generalizing m with
  | nil => exact Option.some.inj lengthened ▸ level
  | cons l rest induction =>
      obtain ⟨td, -, lengthened⟩ := Option.bind_eq_some_iff.mp lengthened
      obtain ⟨next, later⟩ := numbered
      exact induction (level.add td next) later lengthened

end Level

/-- Inserting the chain moves the head upwards, if at all: the chain extends the current
block, with the numbers that follow, or its last link is not heavier. -/
def Climbs (m : ChainManager σ) (chain : List LinkRef) : Prop :=
  (NumberedFrom m.currentBlock.number (chain.map fun l => (m.links l).block) ∧
      ∃ front, chain.head? = some front ∧
        (m.links front).block.prevHash = m.currentBlock.hash) ∨
    ∃ back td, chain.getLast? = some back ∧ (m.links back).td = some td ∧ td ≤ m.td ∧
      ∃ front, chain.head? = some front ∧
        (m.links front).block.prevHash ≠ m.currentBlock.hash

/-- Runs in which the head only ever moves upwards. -/
inductive ClimbingRun (process : ChainManager σ → ChainBlock → ChainBlock → Bool × σ)
    (satisfies : Bytes → ChainManager σ → Bool) : ChainManager σ → Prop
  | boot {genesis : ChainBlock} (processor : σ) : genesis.number = 0 →
      ClimbingRun process satisfies (boot genesis processor)
  | testChain {m after : ChainManager σ} {blocks : List ChainBlock} {left : List LinkRef}
      {verdict : Verdict} : ClimbingRun process satisfies m →
      (m.newChain blocks).1.testChain process (m.newChain blocks).2 = some (after, left, verdict) →
      ClimbingRun process satisfies after
  | insertChain {m after : ChainManager σ} {chain : List LinkRef} :
      ClimbingRun process satisfies m → m.Climbs chain →
      m.insertChain process chain = some after → ClimbingRun process satisfies after
  | checkPoint {m : ChainManager σ} {proposed : Option Bytes} : ClimbingRun process satisfies m →
      ClimbingRun process satisfies (m.checkPoint satisfies proposed)
  | receiveCheckPointBlock {m : ChainManager σ} {block : Option ChainBlock} :
      ClimbingRun process satisfies m →
      (∀ received ∈ block, received.hash = m.latestCheckPointHash →
        received.number = m.currentBlock.number + 1) →
      ClimbingRun process satisfies (m.receiveCheckPointBlock block).1

theorem ClimbingRun.reachable (run : ClimbingRun process satisfies m) :
    Reachable process satisfies m := by
  induction run with
  | boot processor _ => exact .boot _ processor
  | testChain _ tested reachable => exact reachable.testChain tested
  | insertChain _ _ inserted reachable => exact reachable.insertChain inserted
  | checkPoint _ reachable => exact reachable.checkPoint
  | receiveCheckPointBlock _ _ reachable => exact reachable.receiveCheckPointBlock

theorem canonical_checkPoint (m : ChainManager σ) (proposed : Option Bytes) :
    (m.checkPoint satisfies proposed).canonical = m.canonical := by
  cases proposed with
  | none => rfl
  | some hash =>
      simp only [checkPoint]
      split
      · rfl
      · split <;> rfl

theorem Level.insertChain (level : Level m) (recorded : Recorded m) {chain : List LinkRef}
    (climbs : m.Climbs chain) (inserted : m.insertChain process chain = some after) :
    Level after := by
  obtain ⟨front, back, branchParent, frontEq, backEq, parentEq, outcome⟩ :=
    insertChainWith_cases inserted
  have parentHash := recorded.hash_of_getBlock parentEq
  rcases outcome with ⟨same, lengthened⟩ | ⟨different, td, tdEq, ⟨heavier, -⟩ | ⟨-, rfl⟩⟩
  · rcases climbs with ⟨numbered, -⟩ | ⟨-, -, -, -, -, other, otherEq, away⟩
    · exact level.lengthen numbered lengthened
    · obtain rfl : other = front := Option.some.inj (otherEq.symm.trans frontEq)
      exact absurd (parentHash.symm.trans same.symm) away
  · rcases climbs with ⟨-, other, otherEq, extends_⟩ | ⟨last, lastTd, lastEq, lastTdEq, lighter, -⟩
    · obtain rfl : other = front := Option.some.inj (otherEq.symm.trans frontEq)
      exact absurd (extends_.symm.trans parentHash.symm) different
    · obtain rfl : last = back := Option.some.inj (lastEq.symm.trans backEq)
      obtain rfl : lastTd = td := Option.some.inj (lastTdEq.symm.trans tdEq)
      exact absurd heavier lighter.not_gt
  · exact level

/-- In a run whose insertions and checkpoint blocks only move the head upwards, the
counter and the recorded numbers are those of the blocks. -/
theorem level_of_climbingRun (process : ChainManager σ → ChainBlock → ChainBlock → Bool × σ)
    (satisfies : Bytes → ChainManager σ → Bool) (m : ChainManager σ)
    (run : ClimbingRun process satisfies m) : Level m := by
  induction run with
  | boot processor first => exact .boot first processor
  | @testChain m after blocks left verdict _ tested level =>
      have allocates := allocates_newChain m blocks
      have touches := (touches_testChain tested allocates.nodup).1
      exact level.of_canonical_eq (touches.canonical_eq.trans allocates.canonical_eq)
  | insertChain run climbs inserted level =>
      exact level.insertChain run.reachable.recorded climbs inserted
  | checkPoint _ level => exact level.of_canonical_eq (canonical_checkPoint _ _)
  | @receiveCheckPointBlock m block _ next level =>
      cases block with
      | none => exact level
      | some block =>
          simp only [ChainManager.receiveCheckPointBlock]
          split
          · rename_i expected
            have added : Level (m.add block) := level.add m.td (next block rfl expected)
            exact added.of_canonical_eq rfl
          · exact level

/-- A round that presents a chain on top of the current block. -/
theorem ClimbingRun.extend (run : ClimbingRun process satisfies m) {blocks : List ChainBlock}
    {first : ChainBlock} (presented : m.present process blocks = some after)
    (firstEq : blocks.head? = some first) (onTop : first.prevHash = m.currentBlock.hash)
    (numbered : NumberedFrom m.currentBlock.number blocks) :
    ClimbingRun process satisfies after := by
  obtain ⟨tested, chain, verdict, testedEq, outcome⟩ :=
    run.reachable.recorded.present_onTop presented firstEq onTop
  have testedRun := run.testChain testedEq
  rcases outcome with rfl | ⟨inserted, -, same, currentEq, front, frontEq, onHead⟩
  · exact testedRun
  · refine testedRun.insertChain (.inl ⟨?_, front, frontEq, onHead⟩) inserted
    rw [same, currentEq]
    exact numbered

theorem level_of_climbingRun_trunk :
    ∃ m, rounds acceptAll (boot origin ()) [[trunk], [lowLeaf]] = some m ∧
      ClimbingRun acceptAll (fun _ _ => false) m ∧ Level m := by
  obtain ⟨m, presented⟩ := Option.isSome_iff_exists.mp
    (by decide +kernel : ((boot origin ()).present acceptAll [trunk]).isSome)
  have currentEq : ((boot origin ()).present acceptAll [trunk]).map ChainManager.currentBlock =
      some trunk := by
    decide +kernel
  have goesOn : (((boot origin ()).present acceptAll [trunk]).bind fun m =>
      m.present acceptAll [lowLeaf]).isSome := by
    decide +kernel
  rw [presented] at currentEq
  rw [presented, Option.bind_some] at goesOn
  have isTrunk : m.currentBlock = trunk := Option.some.inj currentEq
  obtain ⟨after, again⟩ := Option.isSome_iff_exists.mp goesOn
  have run : ClimbingRun acceptAll (fun _ _ => false) m := by
    have start : ClimbingRun acceptAll (fun _ _ => false) (boot origin ()) :=
      .boot () (by decide +kernel)
    apply start.extend presented rfl
    · decide +kernel
    · exact ⟨by decide +kernel, trivial⟩
  have longer : ClimbingRun acceptAll (fun _ _ => false) after := by
    apply run.extend again rfl
    · rw [isTrunk]
      decide +kernel
    · rw [isTrunk]
      exact ⟨by decide +kernel, trivial⟩
  refine ⟨after, ?_, longer, level_of_climbingRun acceptAll (fun _ _ => false) after longer⟩
  simp [rounds, presented, again]

/-- The high leaf replaces the low leaf, at the same height: the counter goes from 2 to
3, and so does the record of the high leaf. -/
theorem counter_after_reOrg :
    ((rounds acceptAll (boot origin ()) [[trunk], [lowLeaf], [highLeaf]]).map fun m =>
        (m.currentBlock, m.currentBlockNumber,
          (AList.lookup highLeaf.hash m.infos).map BlockInfo.number)) =
      some (highLeaf, 3, some 3) ∧ highLeaf.number = 2 := by
  decide +kernel

end ChainManager

end Thelonious
