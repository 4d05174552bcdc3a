import Thelonious.Chain.Ancestors

/-!
# Blocks keep their hashes

`ProcessTransactions` ends with `parent.GasUsed = totalUsedGas`.  A parent from the
database is a copy, but a parent in the working tree or in the chain that is tested is
the object that is kept, and the gas is part of its hash.  The blocks stay as they are
just if the last gas that is assigned to each of them is the one it had.
-/

namespace Thelonious

theorem Block.setGasUsed_eq_self_iff {block : Block} {gasUsed : Int} :
    block.setGasUsed gasUsed = block ↔ block.header.gasUsed = gasUsed := by
  constructor
  · intro same
    rw [← same]
    rfl
  · rintro rfl
    rfl

namespace Validator

variable {protocol : Protocol} {sha3Bin : Bytes → Bytes} {v before after : Validator}

/-! ### The gas that is assigned -/

/-- The assignments to the `GasUsed` of blocks. -/
def assign (blocks : BlockRef → Block) : List (BlockRef × Int) → BlockRef → Block
  | [] => blocks
  | (ref, gas) :: rest => assign (Function.update blocks ref ((blocks ref).setGasUsed gas)) rest

/-- The gas that is assigned last to a block. -/
def lastGas (ref : BlockRef) : List (BlockRef × Int) → Option Int
  | [] => none
  | (changed, gas) :: rest => (lastGas ref rest).or (if changed = ref then some gas else none)

theorem assign_append (blocks : BlockRef → Block) (first last : List (BlockRef × Int)) :
    assign blocks (first ++ last) = assign (assign blocks first) last := by
  induction first generalizing blocks with
  | nil => rfl
  | cons entry rest induction => exact induction _

theorem assign_eq (blocks : BlockRef → Block) (written : List (BlockRef × Int)) (ref : BlockRef) :
    assign blocks written ref =
      ((lastGas ref written).map (blocks ref).setGasUsed).getD (blocks ref) := by
  induction written generalizing blocks with
  | nil => rfl
  | cons entry rest induction =>
      obtain ⟨changed, gas⟩ := entry
      rw [assign, induction, lastGas]
      by_cases same : changed = ref
      · subst same
        rw [Function.update_self, if_pos rfl]
        cases lastGas changed rest <;> rfl
      · rw [Function.update_of_ne (Ne.symm same), if_neg same, Option.or_none]

theorem assign_eq_self_iff {blocks : BlockRef → Block} {written : List (BlockRef × Int)} :
    (∀ ref, assign blocks written ref = blocks ref) ↔
      ∀ ref gas, lastGas ref written = some gas → (blocks ref).header.gasUsed = gas := by
  refine forall_congr' fun ref => ?_
  rw [assign_eq]
  cases lastGas ref written with
  | none => simp
  | some gas => simp [Block.setGasUsed_eq_self_iff]

variable (protocol)

/-- What processing the link assigns: the gas that its transactions use, to its parent if that
is a block in use. -/
def assignment (v : Validator) (l : LinkRef) : Option (BlockRef × Int) :=
  match v.getBlock protocol.model.sha3Bin (v.blockOf l).header.prevHash with
  | some (.working ref) =>
      (v.usedGas protocol (v.links l).block (.working ref)).map fun gas => (ref, gas)
  | _ => none

/-- What the loop of `TestChain` assigns, up to the first block that fails. -/
def assignments (v : Validator) : List LinkRef → List (BlockRef × Int)
  | [] => []
  | l :: rest =>
      (v.assignment protocol l).toList ++
        match v.processLink protocol l with
        | some (next, .ok _) => assignments next rest
        | _ => []

variable {protocol} {chain left : List LinkRef} {result : Except BlockErr (Option Int)}

theorem blocks_of_processLink {l : LinkRef}
    (processed : v.processLink protocol l = some (after, result)) :
    after.blocks = assign v.blocks (v.assignment protocol l).toList := by
  unfold processLink at processed
  unfold assignment
  dsimp only at processed
  rw [← blockOf] at processed
  cases found : v.getBlock protocol.model.sha3Bin (v.blockOf l).header.prevHash with
  | none =>
      rw [found] at processed
      cases processed
      rfl
  | some parent =>
      rw [found] at processed
      obtain ⟨⟨next, outcome⟩, processedEq, processed⟩ := Option.bind_eq_some_iff.mp processed
      have kept : after.blocks = next.blocks := by
        cases outcome <;> cases processed <;> rfl
      rw [kept]
      rcases processWithParent_cases processedEq with ⟨none, keeps, -⟩ | ⟨gas, some, keeps, -⟩
      · rw [keeps.blocks_eq]
        cases parent with
        | stored => rfl
        | working ref =>
            simp only [none]
            rfl
      · rw [keeps.blocks_eq]
        cases parent with
        | stored => rfl
        | working ref =>
            simp only [some]
            rfl

theorem blocks_of_processChain {rest : List LinkRef} {td : Option Int}
    (processed : v.processChain protocol td rest = some (after, result)) :
    after.blocks = assign v.blocks (v.assignments protocol rest) := by
  induction rest generalizing v td with
  | nil =>
      cases processed
      rfl
  | cons l rest induction =>
      obtain ⟨⟨next, outcome⟩, linkEq, processed⟩ := Option.bind_eq_some_iff.mp processed
      have first := blocks_of_processLink linkEq
      rw [assignments, linkEq, assign_append, ← first]
      cases outcome with
      | error err =>
          cases processed
          rfl
      | ok nextTd => exact induction processed

/-! ### Joining the tree and inserting -/

theorem joinTree_frame {done : List LinkRef}
    (joined : v.joinTree protocol done chain = some (after, left)) :
    after.blocks = v.blocks ∧ ∀ l, (after.links l).block = (v.links l).block := by
  induction chain generalizing v done with
  | nil =>
      cases joined
      exact ⟨rfl, fun _ => rfl⟩
  | cons l rest induction =>
      unfold joinTree at joined
      dsimp only at joined
      split at joined
      · cases joined
        exact ⟨rfl, fun _ => rfl⟩
      · obtain ⟨place, -, joined⟩ := Option.bind_eq_some_iff.mp joined
        cases place with
        | none =>
            cases joined
            exact ⟨rfl, fun _ => rfl⟩
        | some place =>
            obtain ⟨blocksEq, linksEq⟩ := induction joined
            exact ⟨blocksEq, fun other => (linksEq other).trans (joinLink_link_block _ _ _ _ _)⟩

theorem recordFork_frame {fork : Bool}
    (joined : v.recordFork protocol fork chain = some (after, left)) :
    after.blocks = v.blocks ∧ ∀ l, (after.links l).block = (v.links l).block := by
  unfold recordFork at joined
  split at joined
  · exact joinTree_frame joined
  · cases joined
    exact ⟨rfl, fun _ => rfl⟩

/-- The blocks after `TestChain`. -/
theorem blocks_of_testChain {verdict : Verdict}
    (tested : v.testChain protocol chain = some (after, left, verdict)) :
    after.blocks = assign v.blocks ((v.setWorkingChain chain).assignments protocol chain) ∧
      ∀ l, (after.links l).block = (v.links l).block := by
  obtain ⟨front, looped, result, -, loopEq, outcome⟩ := testChain_cases tested
  have blocksEq := blocks_of_processChain loopEq
  have linksEq : ∀ l, (looped.links l).block = (v.links l).block :=
    fun l => ((touches_processChain loopEq).link l).1
  rcases outcome with ⟨err, -, rfl, rfl, -⟩ | ⟨td, joined, fork, -, joinEq, rfl, -⟩
  · exact ⟨blocksEq, linksEq⟩
  · obtain ⟨joinedBlocks, joinedLinks⟩ := recordFork_frame joinEq
    exact ⟨joinedBlocks.trans blocksEq, fun l => (joinedLinks l).trans (linksEq l)⟩

/-- `insertChain` stores blocks under the hashes they have, and a block that is stored is not
replaced by one with another hash. -/
theorem records_of_lengthen (lengthened : v.lengthen protocol chain = some after) (hash : Bytes)
    (stored : (∃ block, v.getBlockCanonical hash = some block ∧
        block.hash protocol.model.sha3Bin = hash) ∨
      ∃ l ∈ chain, v.hashOf protocol.model.sha3Bin (v.links l).block = hash) :
    ∃ block, after.getBlockCanonical hash = some block ∧
      block.hash protocol.model.sha3Bin = hash := by
  induction chain generalizing v with
  | nil =>
      cases lengthened
      rcases stored with present | ⟨l, member, -⟩
      · exact present
      · cases member
  | cons first rest induction =>
      obtain ⟨td, -, lengthened⟩ := Option.bind_eq_some_iff.mp lengthened
      apply induction lengthened
      by_cases same : hash = v.hashOf protocol.model.sha3Bin (v.links first).block
      · subst same
        exact .inl ⟨_, AList.lookup_insert _, rfl⟩
      · rcases stored with ⟨block, present, hashEq⟩ | ⟨l, member, hashEq⟩
        · exact .inl ⟨block, (AList.lookup_insert_ne same).trans present, hashEq⟩
        · rcases List.mem_cons.mp member with rfl | later
          · exact (same hashEq.symm).elim
          · exact .inr ⟨l, later, hashEq⟩

/-- A block that says that gas was used, and the block on it: the coinbase has two rewards. -/
def spentBlock : Block := (bareBlock 1).setGasUsed 7

def spentHeir : Block :=
  bareHeir 0x507bc176c90384b7703ba3b323f389840a2bc9a2ac15d064a78dca1ec50a88d7

/-- The block with a transaction that cannot be paid for, and gets a receipt over its gas. -/
def busyHeir : Block := { spentHeir with transactions := [sampleTx [4] 0 7 1] }

/-- The canonical block is a heavy one, and another one on genesis is in the working tree. -/
def forked (fork : Block) : Option Validator := do
  let v ← bareStart.present bareProtocol [uncleBlock]
  v.present bareProtocol [fork]

end Validator

end Thelonious
