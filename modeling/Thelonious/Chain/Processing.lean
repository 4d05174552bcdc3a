import Thelonious.Chain.Validator

/-!
# What processing a block does to the managers

Besides the state that is kept and the code that is stored, processing a block only
writes the `GasUsed` of blocks and the total difficulties of links.  A block that
passes satisfies the rules of the protocol with the block that its `PrevHash` names
when it is accepted.
-/

namespace Thelonious

namespace Validator

variable {protocol : Protocol} {before middle after v : Validator}

/-- Only the database of the state and the state kept for the next block may differ. -/
def Keeps (before after : Validator) : Prop :=
  ∃ db transState, after = (before.setDb db).setTransState transState

theorem keeps_setTransState (v : Validator) (transState : Option World) :
    Keeps v (v.setTransState transState) := ⟨v.db, transState, rfl⟩

theorem Keeps.of_setDb {db : Database} (keeps : Keeps (v.setDb db) after) : Keeps v after := by
  obtain ⟨later, transState, rfl⟩ := keeps
  exact ⟨later, transState, rfl⟩

/-- Blocks differ in their `GasUsed` at most, and links in their total difficulty. -/
structure Touches (before after : Validator) : Prop where
  frame : after = { before with
    db := after.db, blocks := after.blocks, links := after.links,
    transState := after.transState, lastAttemptedBlock := after.lastAttemptedBlock }
  link (l : LinkRef) :
    (after.links l).block = (before.links l).block ∧
    (after.links l).parent = (before.links l).parent
  block (ref : BlockRef) : ∃ gasUsed, after.blocks ref = (before.blocks ref).setGasUsed gasUsed

namespace Touches

theorem refl (v : Validator) : Touches v v where
  frame := rfl
  link _ := ⟨rfl, rfl⟩
  block ref := ⟨(v.blocks ref).header.gasUsed, rfl⟩

theorem trans (first : Touches before middle) (last : Touches middle after) :
    Touches before after where
  frame := by
    have frame := last.frame
    rw [first.frame] at frame
    exact frame
  link l := by
    obtain ⟨lastBlock, lastParent⟩ := last.link l
    obtain ⟨firstBlock, firstParent⟩ := first.link l
    exact ⟨lastBlock.trans firstBlock, lastParent.trans firstParent⟩
  block ref := by
    obtain ⟨gasUsed, lastEq⟩ := last.block ref
    obtain ⟨earlier, firstEq⟩ := first.block ref
    exact ⟨gasUsed, by rw [lastEq, firstEq]; rfl⟩

theorem of_keeps (keeps : Keeps before after) : Touches before after := by
  obtain ⟨db, transState, rfl⟩ := keeps
  exact ⟨rfl, fun _ => ⟨rfl, rfl⟩, (refl before).block⟩

theorem attempt (v : Validator) (ref : BlockRef) : Touches v (v.attempt ref) :=
  ⟨rfl, fun _ => ⟨rfl, rfl⟩, (refl v).block⟩

theorem setGasUsed (v : Validator) (gasUsed : Int) (parent : Found) :
    Touches v (v.setGasUsed gasUsed parent) := by
  cases parent with
  | stored => exact refl v
  | working changed =>
      refine ⟨rfl, fun _ => ⟨rfl, rfl⟩, ?_⟩
      intro ref
      by_cases same : ref = changed
      · subst same
        exact ⟨gasUsed, Function.update_self ..⟩
      · obtain ⟨old, oldEq⟩ := (refl v).block ref
        exact ⟨old, (Function.update_of_ne same ..).trans oldEq⟩

theorem setTd (v : Validator) (td : Option Int) (changed : LinkRef) :
    Touches v (v.setTd td changed) := by
  refine ⟨rfl, ?_, (refl v).block⟩
  intro l
  by_cases same : l = changed
  · subst same
    simp [Validator.setTd]
  · simp [Validator.setTd, Function.update_of_ne same]

theorem blockOf (touches : Touches before after) (l : LinkRef) :
    ∃ gasUsed, after.blockOf l = (before.blockOf l).setGasUsed gasUsed := by
  rw [Validator.blockOf, (touches.link l).1]
  exact touches.block (before.links l).block

theorem records (touches : Touches before after) : after.records = before.records := by
  rw [touches.frame]

theorem workingTree (touches : Touches before after) : after.workingTree = before.workingTree := by
  rw [touches.frame]

theorem workingChain (touches : Touches before after) :
    after.workingChain = before.workingChain := by
  rw [touches.frame]

theorem nextBlock (touches : Touches before after) : after.nextBlock = before.nextBlock := by
  rw [touches.frame]

theorem nextLink (touches : Touches before after) : after.nextLink = before.nextLink := by
  rw [touches.frame]

end Touches

/-! ### Reading after a change of the state -/

theorem Keeps.lookup_eq (keeps : Keeps before after) (sha3Bin : Bytes → Bytes) :
    after.lookup sha3Bin = before.lookup sha3Bin := by
  obtain ⟨db, transState, rfl⟩ := keeps
  rfl

theorem Keeps.blocks_eq (keeps : Keeps before after) : after.blocks = before.blocks := by
  obtain ⟨db, transState, rfl⟩ := keeps
  rfl

theorem Touches.getBlock_eq (touches : Touches before after)
    (blocksEq : after.blocks = before.blocks)
    (sha3Bin : Bytes → Bytes) : after.getBlock sha3Bin = before.getBlock sha3Bin := by
  have blockEq : ∀ l, (after.links l).block = (before.links l).block := fun l => (touches.link l).1
  funext hash
  simp only [getBlock, getBlockCanonical, getBlockWorking, findWorking, hashOf, touches.records,
    touches.workingTree, touches.workingChain, blockEq, blocksEq]
  rfl

theorem lookup_setTd (sha3Bin : Bytes → Bytes) (v : Validator) (td : Option Int) (l : LinkRef) :
    (v.setTd td l).lookup sha3Bin = v.lookup sha3Bin := by
  funext hash
  rw [lookup, lookup, (Touches.setTd v td l).getBlock_eq rfl]
  rfl

/-- The block satisfies the rules with its parent, and its total difficulty is the parent's
with what it counts. -/
structure Passes (protocol : Protocol) (v : Validator) (block : Block) (td : Option Int)
    (prevBlock : Block) : Prop where
  known : v.lookup protocol.model.sha3Bin block.header.prevHash = some prevBlock
  validates : protocol.model.Validates prevBlock.header block
  counted : ∃ parentTd, td = some (parentTd + (block.counted.map Header.difficulty).sum)

/-! ### The stages of `ProcessWithParent` -/

theorem counted_of_calcTotalDiff {sha3Bin : Bytes → Bytes} {block prevBlock : Block}
    {td : Option Int} (known : v.lookup sha3Bin block.header.prevHash = some prevBlock)
    (total : v.calcTotalDiff sha3Bin block = some td) :
    ∃ parentTd, td = some (parentTd + (block.counted.map Header.difficulty).sum) := by
  rw [calcTotalDiff, known] at total
  obtain ⟨parentTd, -, total⟩ := Option.bind_eq_some_iff.mp total
  exact ⟨parentTd, (Option.some.inj total).symm⟩

section Stages

variable {ref : BlockRef} {parent : Found} {w : World} {receipts : List Receipt}
  {result : Except BlockErr (Option Int)}

theorem settle_cases (settled : v.settle protocol ref w = some (after, result)) :
    Keeps v after ∧ ∀ td, result = .ok td →
      v.calcTotalDiff protocol.model.sha3Bin (v.blocks ref) = some td := by
  obtain ⟨total, totalEq, settled⟩ := Option.bind_eq_some_iff.mp settled
  cases total with
  | none =>
      cases settled
      refine ⟨keeps_setTransState v _, ?_⟩
      rintro td ⟨⟩
      exact totalEq
  | some total =>
      dsimp only at settled
      split at settled
      · cases settled
        refine ⟨⟨_, _, rfl⟩, ?_⟩
        rintro td ⟨⟩
        exact totalEq
      · cases settled
        refine ⟨keeps_setTransState v _, ?_⟩
        rintro td ⟨⟩
        exact totalEq

theorem finalize_cases (finalized : v.finalize protocol ref parent w = some (after, result)) :
    Keeps v after ∧ ∀ td, result = .ok td →
      v.calcTotalDiff protocol.model.sha3Bin (v.blocks ref) = some td := by
  obtain ⟨⟨rewarded, message⟩, -, finalized⟩ := Option.bind_eq_some_iff.mp finalized
  cases message with
  | some message =>
      cases finalized
      refine ⟨keeps_setTransState v _, ?_⟩
      intro td passed
      cases passed
  | none =>
      obtain ⟨⟨db, updated⟩, -, finalized⟩ := Option.bind_eq_some_iff.mp finalized
      dsimp only at finalized
      split at finalized
      · obtain ⟨keeps, totals⟩ := settle_cases finalized
        exact ⟨keeps.of_setDb, totals⟩
      · cases finalized
        refine ⟨⟨db, none, rfl⟩, ?_⟩
        intro td passed
        cases passed

theorem check_cases (checked : v.check protocol ref parent w receipts = some (after, result)) :
    Keeps v after ∧ ∀ td, result = .ok td →
      ∃ prevBlock, v.Passes protocol (v.blocks ref) td prevBlock := by
  obtain ⟨txSha, -, checked⟩ := Option.bind_eq_some_iff.mp checked
  dsimp only at checked
  split at checked
  · cases checked
    refine ⟨keeps_setTransState v _, ?_⟩
    intro td passed
    cases passed
  · obtain ⟨validity, validated, checked⟩ := Option.bind_eq_some_iff.mp checked
    cases validity with
    | error err =>
        cases checked
        refine ⟨keeps_setTransState v _, ?_⟩
        intro td passed
        cases passed
    | ok passed =>
        obtain ⟨keeps, totals⟩ := finalize_cases checked
        refine ⟨keeps, ?_⟩
        intro td okEq
        obtain ⟨header, found, validates⟩ := EthModel.validateBlock_ok_iff.mp validated
        obtain ⟨prevBlock, known, rfl⟩ := Option.map_eq_some_iff.mp found
        exact ⟨prevBlock, known, validates, counted_of_calcTotalDiff known (totals td okEq)⟩

end Stages

section Processing

variable {ref : BlockRef} {parent : Found} {result : Except BlockErr (Option Int)}

/-- What `ProcessWithParent` does before it checks anything. -/
def charge (v : Validator) (ref : BlockRef) (parent : Found) (gasUsed : Int) : Validator :=
  (v.attempt ref).setGasUsed gasUsed parent

theorem touches_charge (v : Validator) (ref : BlockRef) (parent : Found) (gasUsed : Int) :
    Touches v (v.charge ref parent gasUsed) :=
  (Touches.attempt v ref).trans (.setGasUsed _ _ _)

/-- The gas that the transactions of the block use on the state of the parent, if
`ProcessTransactions` comes to its end. -/
def usedGas (protocol : Protocol) (v : Validator) (ref : BlockRef) (parent : Found) : Option Int :=
  match applyDiff protocol v.db (v.blocks ref) (v.stateFor protocol.model.sha3Bin parent) with
  | some (.returned progress _) => some progress.totalUsedGas
  | _ => none

/-- Either the receipts have failed, or the `GasUsed` of the parent is written and the block
is checked afterwards. -/
theorem processWithParent_cases
    (processed : v.processWithParent protocol ref parent = some (after, result)) :
    (v.usedGas protocol ref parent = none ∧ Keeps (v.attempt ref) after ∧
        ∃ err, result = .error err) ∨
      ∃ gasUsed, v.usedGas protocol ref parent = some gasUsed ∧
        Keeps (v.charge ref parent gasUsed) after ∧ ∀ td, result = .ok td →
        ∃ prevBlock, (v.charge ref parent gasUsed).Passes protocol
          ((v.charge ref parent gasUsed).blocks ref) td prevBlock := by
  obtain ⟨processing, applied, processed⟩ := Option.bind_eq_some_iff.mp processed
  change applyDiff protocol v.db (v.blocks ref) _ = _ at applied
  unfold usedGas
  rw [applied]
  cases processing with
  | processing | panicked | unfinished => cases processed
  | mismatch =>
      cases processed
      exact .inl ⟨rfl, keeps_setTransState _ _, _, rfl⟩
  | returned progress unhandled =>
      refine .inr ⟨progress.totalUsedGas, rfl, ?_⟩
      dsimp only at processed
      split at processed
      · obtain ⟨keeps, passes⟩ := check_cases processed
        refine ⟨keeps.of_setDb, ?_⟩
        intro td passed
        obtain ⟨prevBlock, known, validates, counted⟩ := passes td passed
        exact ⟨prevBlock, known, validates, counted⟩
      · cases processed
        refine ⟨⟨progress.db, none, rfl⟩, ?_⟩
        intro td passed
        cases passed

theorem touches_processWithParent
    (processed : v.processWithParent protocol ref parent = some (after, result)) :
    Touches v after := by
  rcases processWithParent_cases processed with ⟨-, keeps, -⟩ | ⟨gasUsed, -, keeps, -⟩
  · exact (Touches.attempt v ref).trans (.of_keeps keeps)
  · exact (touches_charge v ref parent gasUsed).trans (.of_keeps keeps)

theorem passes_of_processWithParent {td : Option Int}
    (processed : v.processWithParent protocol ref parent = some (after, .ok td)) :
    ∃ prevBlock, after.Passes protocol (after.blocks ref) td prevBlock := by
  rcases processWithParent_cases processed with ⟨-, -, err, failed⟩ | ⟨gasUsed, -, keeps, passes⟩
  · cases failed
  · obtain ⟨prevBlock, known, validates, counted⟩ := passes td rfl
    rw [keeps.blocks_eq]
    exact ⟨prevBlock, (congrFun (keeps.lookup_eq _) _).trans known, validates, counted⟩

end Processing

/-! ### The loop of `TestChain` -/

section Loop

variable {result : Except BlockErr (Option Int)}

theorem processLink_cases {l : LinkRef}
    (processed : v.processLink protocol l = some (after, result)) :
    Touches v after ∧ ∀ td, result = .ok td →
      ∃ prevBlock, after.Passes protocol (after.blockOf l) td prevBlock := by
  unfold processLink at processed
  dsimp only at processed
  cases found : v.getBlock protocol.model.sha3Bin (v.blocks (v.links l).block).header.prevHash with
  | none =>
      rw [found] at processed
      cases processed
      refine ⟨.refl after, ?_⟩
      intro td passed
      cases passed
  | some parent =>
      rw [found] at processed
      obtain ⟨⟨next, outcome⟩, processedEq, processed⟩ := Option.bind_eq_some_iff.mp processed
      have touches := touches_processWithParent processedEq
      cases outcome with
      | error err =>
          cases processed
          refine ⟨touches, ?_⟩
          intro td passed
          cases passed
      | ok td =>
          cases processed
          refine ⟨touches.trans (.setTd next td l), ?_⟩
          rintro _ ⟨⟩
          have blockEq : ((next.setTd td l).links l).block = (v.links l).block :=
            ((touches.trans (.setTd next td l)).link l).1
          obtain ⟨prevBlock, known, validates, counted⟩ := passes_of_processWithParent processedEq
          rw [blockOf, blockEq]
          exact ⟨prevBlock, (congrFun (lookup_setTd _ _ _ _) _).trans known, validates, counted⟩

theorem touches_processChain {chain : List LinkRef} {td : Option Int}
    (processed : v.processChain protocol td chain = some (after, result)) : Touches v after := by
  induction chain generalizing v td with
  | nil =>
      cases processed
      exact .refl after
  | cons l rest induction =>
      obtain ⟨⟨next, outcome⟩, linkEq, processed⟩ := Option.bind_eq_some_iff.mp processed
      have touches := (processLink_cases linkEq).1
      cases outcome with
      | error err =>
          cases processed
          exact touches
      | ok nextTd => exact touches.trans (induction processed)

/-- A chain that passes passes link by link. -/
theorem processChain_append {first second : List LinkRef} {td last : Option Int}
    (processed : v.processChain protocol td (first ++ second) = some (after, .ok last)) :
    ∃ middle between, v.processChain protocol td first = some (middle, .ok between) ∧
      middle.processChain protocol between second = some (after, .ok last) := by
  induction first generalizing v td with
  | nil => exact ⟨v, td, rfl, processed⟩
  | cons l rest induction =>
      obtain ⟨⟨next, outcome⟩, linkEq, processed⟩ := Option.bind_eq_some_iff.mp processed
      cases outcome with
      | error err => cases processed
      | ok nextTd =>
          obtain ⟨middle, between, restEq, secondEq⟩ := induction processed
          refine ⟨middle, between, ?_, secondEq⟩
          rw [processChain, linkEq]
          exact restEq

/-- The last link of a chain that passes satisfies the rules in the state that it leaves. -/
theorem passes_of_processChain {before : List LinkRef} {l : LinkRef} {td last : Option Int}
    (processed : v.processChain protocol td (before ++ [l]) = some (after, .ok last)) :
    ∃ prevBlock, after.Passes protocol (after.blockOf l) last prevBlock := by
  obtain ⟨middle, between, -, lastEq⟩ := processChain_append processed
  obtain ⟨⟨next, outcome⟩, linkEq, lastEq⟩ := Option.bind_eq_some_iff.mp lastEq
  cases outcome with
  | error err => cases lastEq
  | ok nextTd =>
      cases lastEq
      exact (processLink_cases linkEq).2 _ rfl

end Loop

/-! ### `TestChain` -/

/-- What `TestChain` has passed through when its loop ends. -/
theorem testChain_cases {chain left : List LinkRef} {verdict : Verdict}
    (tested : v.testChain protocol chain = some (after, left, verdict)) :
    ∃ front looped result,
      chain.head? = some front ∧
      (v.setWorkingChain chain).processChain protocol none chain = some (looped, result) ∧
      ((∃ err, result = .error err ∧ after = looped.setWorkingChain [] ∧ left = chain ∧
          verdict = .failed) ∨
        ∃ td joined fork, result = .ok (some td) ∧
          looped.recordFork protocol fork chain = some (joined, left) ∧
          after = joined.setWorkingChain [] ∧
          verdict = if td ≤ joined.td then .tooLight else .accepted) := by
  obtain ⟨front, headEq, tested⟩ := Option.bind_eq_some_iff.mp tested
  obtain ⟨⟨looped, result⟩, loopEq, tested⟩ := Option.bind_eq_some_iff.mp tested
  refine ⟨front, looped, result, headEq, loopEq, ?_⟩
  cases result with
  | error err =>
      cases tested
      exact .inl ⟨err, rfl, rfl, rfl, rfl⟩
  | ok td =>
      obtain ⟨⟨joined, rest⟩, joinEq, tested⟩ := Option.bind_eq_some_iff.mp tested
      obtain ⟨total, rfl, tested⟩ := Option.bind_eq_some_iff.mp tested
      cases tested
      exact .inr ⟨total, joined, _, rfl, joinEq, rfl, rfl⟩

/-- In a chain that `TestChain` accepts every block satisfies the rules when it is
processed. -/
theorem passes_of_testChain {chain left : List LinkRef} {verdict : Verdict} {i : Nat}
    {l : LinkRef} (tested : v.testChain protocol chain = some (after, left, verdict))
    (accepted : verdict ≠ .failed) (linkEq : chain[i]? = some l) :
    ∃ passed td, (v.setWorkingChain chain).processChain protocol none (chain.take (i + 1)) =
        some (passed, .ok td) ∧
      ∃ prevBlock, passed.Passes protocol (passed.blockOf l) td prevBlock := by
  obtain ⟨front, looped, result, -, loopEq, failed | ⟨total, joined, fork, rfl, -⟩⟩ :=
    testChain_cases tested
  · exact (accepted failed.choose_spec.2.2.2).elim
  · have takeEq : chain.take (i + 1) = chain.take i ++ [l] := by
      rw [List.take_add_one, linkEq]
      rfl
    have splitEq : chain = chain.take (i + 1) ++ chain.drop (i + 1) :=
      (List.take_append_drop _ _).symm
    nth_rewrite 2 [splitEq] at loopEq
    obtain ⟨passed, td, passedEq, -⟩ := processChain_append loopEq
    refine ⟨passed, td, passedEq, ?_⟩
    rw [takeEq] at passedEq
    exact passes_of_processChain passedEq

/-- The work of every header that an accepted block counts is proven exactly when its uncles
prove theirs: nothing else looks at the nonces of uncles. -/
theorem counted_work_proven_iff {chain left : List LinkRef} {verdict : Verdict} {i : Nat}
    {l : LinkRef} (tested : v.testChain protocol chain = some (after, left, verdict))
    (accepted : verdict ≠ .failed) (linkEq : chain[i]? = some l) :
    ∃ passed td parentTd,
      (v.setWorkingChain chain).processChain protocol none (chain.take (i + 1)) =
        some (passed, .ok (some td)) ∧
      td = parentTd + ((passed.blockOf l).counted.map Header.difficulty).sum ∧
      ((∀ header ∈ (passed.blockOf l).counted, header.Proven protocol.model.sha3Bin) ↔
        ∀ uncle ∈ (passed.blockOf l).uncles, uncle.Proven protocol.model.sha3Bin) := by
  obtain ⟨passed, total, passedEq, prevBlock, -, validates, parentTd, rfl⟩ :=
    passes_of_testChain tested accepted linkEq
  refine ⟨passed, _, parentTd, passedEq, rfl, ?_⟩
  constructor
  · intro counted uncle member
    exact counted uncle (List.mem_append_left _ member)
  · intro uncles header member
    rcases List.mem_append.mp member with uncle | own
    · exact uncles header uncle
    · rw [List.mem_singleton.mp own]
      exact validates.proven

end Validator

/-! ### Blocks without transactions

A block without a signature has the signer `"\x00"`, which the coinbase of these blocks is.  At
difficulty 1 every nonce will do. -/

def bareGenesis : Block where
  header :=
    { prevHash := List.replicate 32 0, uncleSha := [], coinbase := [0], root := .bytes [],
      txSha := [], difficulty := 1, number := 0, minGasPrice := 0, gasLimit := 0, gasUsed := 0,
      time := 0, extra := [], nonce := [] }
  transactions := []
  receipts := []
  uncles := []
  v := 0
  r := []
  s := []

/-- A block on genesis, after which the coinbase has one reward. -/
def bareBlock (number : Int) : Block :=
  { bareGenesis with header := { bareGenesis.header with
      prevHash := digest 0x7305303cbc640f1d6f89001a3fdbf808ace87f8e0b7970d2ed23ea20b4a0ab92
      root := .bytes (digest 0xbd3b633ac9476e4ab3f792f30789a00df71d89a1481dc68707fde45274754b6e)
      number := number, time := 10, nonce := [1] } }

/-- An uncle with a difficulty that nobody has worked for. -/
def bareUncle : Header := { (bareBlock 1).header with difficulty := 2 ^ 200, nonce := [7] }

/-- A block on genesis with that uncle, whose coinbase is the same. -/
def uncleBlock : Block :=
  { bareBlock 1 with
    uncles := [bareUncle]
    header := { (bareBlock 1).header with
      uncleSha := digest 0x80d1147281f443fba0bdc9bfbd4615aa00aa5e519b13f6ec2de51116a4cbc51d
      root := .bytes (digest 0xf887090e13acb98ac284deba21a94ffb8af0b6c9e431a3583d2c83ae61b54b17) } }

/-- An uncle that proves its work, and a block with it. -/
def provenUncle : Header := { (bareBlock 1).header with nonce := [7] }

def provenBlock : Block :=
  { uncleBlock with
    uncles := [provenUncle]
    header := { uncleBlock.header with
      uncleSha := digest 0x8de2cbad46ce7bca996dea00cd34053b4d35d2e1d6942ce40c0f301d7a1fcf17 } }

/-- A block on a block with the number 1, after which the coinbase has two rewards. -/
def bareHeir (prevHash : Nat) : Block :=
  { bareBlock 2 with header := { (bareBlock 2).header with
      prevHash := digest prevHash
      root := .bytes (digest 0xc18a8cf29ed14df1500e76791cd35477903e0b5a1fb67f900f3d16bf52f5d4ff)
      time := 20 } }

/-- The digests for a header: of the header, of the header without the nonce, and the one that
the nonce is tested with. -/
def minedDigests (header : Header) (hash hashNoNonce work : Nat) : List (Bytes × Bytes) :=
  [(encode header.value, digest hash), (header.hashNoNonce id, digest hashNoNonce),
    (digest hashNoNonce ++ header.nonce, digest work)]

/-- The digests of genesis, of the nodes of the account trie, and those for the headers. -/
def bareDigests : List (Bytes × Bytes) :=
  [(encode bareGenesis.header.value,
      digest 0x7305303cbc640f1d6f89001a3fdbf808ace87f8e0b7970d2ed23ea20b4a0ab92),
    (bigBytes 0xe4952000000000000000000000000000000000000000008dcc808814d1120d7b1600008080,
      digest 0xbd3b633ac9476e4ab3f792f30789a00df71d89a1481dc68707fde45274754b6e),
    (bigBytes 0xe4952000000000000000000000000000000000000000008dcc808828fb9b8a8a5350008080,
      digest 0xf887090e13acb98ac284deba21a94ffb8af0b6c9e431a3583d2c83ae61b54b17),
    (bigBytes 0xe4952000000000000000000000000000000000000000008dcc808829a2241af62c00008080,
      digest 0xc18a8cf29ed14df1500e76791cd35477903e0b5a1fb67f900f3d16bf52f5d4ff),
    (encode provenUncle.value,
      digest 0x1a6d7608e80af1bace7544d0f03eebd4496841d46845a01b853c96c1e3bf4d85),
    (bigBytes 0x14e398274b36d053ef26d3194b3861e9d4a8555f5e6d41601b8845c3688e9de207,
      digest 0x1f10e606797c3d541e832f868d4b01c27df67512a755c516da166fa3d2146d04)] ++
  minedDigests (bareBlock 1).header
    0x14ab209bed729d8aca3a395710907db3cf4713d503006b7c884fb6c77c75bc43
    0x14e398274b36d053ef26d3194b3861e9d4a8555f5e6d41601b8845c3688e9de2
    0x214b9b28865fba8c4b8cc6ee09157c9b425b430744726c7aa3ff32ca48e8e610 ++
  minedDigests (bareBlock 5).header
    0x61b41d1b7b10ef85db1320802eba931e607b8d2a477075c7bb63d8db92d48de7
    0x06c9d3de9f1e01ea7cc10bf5e3b2a21cce10a27fe17545d987b8c5c667136742
    0xf70ada3d5254302a2617ad9862212011991bddb5378dfde120cbe78d89a23954 ++
  minedDigests bareUncle
    0x88bb15a5b415c26387a785e01ca1661ec960782d4ac2c6ca1b1779bb4a4316ad
    0xe98ad2eeec955722af0304ba87c8ae5b0e373c68a7c95c8b29883041052b7dc5
    0x6db706df37e34895ea51307cec89e3f728a0fe22c93ed1f7077ccef9659c4584 ++
  minedDigests uncleBlock.header
    0xcf0757c87befcc67364fd9cc6321c939f8f07a22a5caf9b12fba1419d0270e02
    0xa315fd1872164d2bf102bbf0482733c86029e20b022716c8a132a92416a87b03
    0xfe10bb59923af3b756c909f38b5f0fb918f234ee1c2d966e0963db4291b73a7b ++
  minedDigests ((bareBlock 1).setGasUsed 7).header
    0x507bc176c90384b7703ba3b323f389840a2bc9a2ac15d064a78dca1ec50a88d7
    0xf44f6ad93dc521fe90e58755be7c3453525018e257f0cba2f97d59b04364f74b
    0x8007d117757e881ce12739f00dfeba0b3a3c7d807977aec18adfaba0cf784aa8 ++
  minedDigests (bareHeir 0x14ab209bed729d8aca3a395710907db3cf4713d503006b7c884fb6c77c75bc43).header
    0x0f565cf4fbcd8be1d1ce22e1b7a314d2f631c9b0ae5023ee1826efac5d9e6e5d
    0xe85ed633d41832e66f96ec2f2f3fcdc38785032767b0d308eb762661503b3d9e
    0x83ddf3824d32d73138cd5c3109f2fdc2fe156c8aabdf114c94b3e06d623b7b2a ++
  minedDigests (bareHeir 0x507bc176c90384b7703ba3b323f389840a2bc9a2ac15d064a78dca1ec50a88d7).header
    0xbd484ca9155163f360dff84796fda62d0a258287569afbc4e781d7a05a065d64
    0x4f50cb1c1ef9ade5f92cdb89c8a9ef054c688308c7ac244e0922c7b821a9a4fa
    0x268c3d21f115fddaebb29b3a4396cc956b2930db9f48c7662b9432f686c906fa ++
  minedDigests provenBlock.header
    0x2f1328495333119d67b7d3799c0b1d16cb4e41ea3a4209543fcfbb115cddff7d
    0xe940894a78cabb4f09287877179b73976631ef34b409f9b68293d4fd2f0057eb
    0x715c53789dee007e1b2d2fae59c598936c76c2621049b7ac21fc1dbd6585eb46

def bareHash : Bytes → Bytes :=
  sampled bareDigests fun data => data ++ List.replicate 33 0

def bareHost : Host := { BlockManager.ledgerHost with sha3Bin := bareHash }

def bareProtocol : Protocol where
  model := ⟨bareHash, fun _ _ => [], 10⟩
  manager := { BlockManager.ledgerManager with
    host := bareHost, validateTx := ethValidateTx bareHost, addresses := fun _ => [address [0]] }

def bareStart : Validator := .boot bareHash bareGenesis ∅

/-- The verdict of `TestChain` on blocks that come in. -/
def Validator.verdict (v : Validator) (protocol : Protocol) (blocks : List Block) :
    Option Verdict :=
  ((v.load blocks).1.testChain protocol (v.load blocks).2).map fun tested => tested.2.2

/-- `TestChain` accepts a block that proves its work, as its uncle does. -/
theorem counted_work_proven_bare :
    ∃ passed td,
      ((bareStart.load [provenBlock]).1.setWorkingChain [0]).processChain bareProtocol none [0] =
        some (passed, .ok (some td)) ∧
      (passed.blockOf 0).uncles = [provenUncle] ∧
      ∀ header ∈ (passed.blockOf 0).counted, header.Proven bareHash := by
  have acceptedEq : bareStart.verdict bareProtocol [provenBlock] = some .accepted := by
    decide +kernel
  obtain ⟨⟨after, left, verdict⟩, tested, isAccepted⟩ := Option.map_eq_some_iff.mp acceptedEq
  have accepted : verdict ≠ .failed := by
    rw [show verdict = .accepted from isAccepted]
    decide
  have linkEq : (bareStart.load [provenBlock]).2[0]? = some 0 := rfl
  obtain ⟨passed, td, parentTd, passedEq, -, proven_iff⟩ :=
    Validator.counted_work_proven_iff tested accepted linkEq
  obtain ⟨gasUsed, blockEq⟩ := (Validator.touches_processChain passedEq).blockOf 0
  have unclesEq : (passed.blockOf 0).uncles = [provenUncle] := by
    rw [blockEq]
    rfl
  refine ⟨passed, td, passedEq, unclesEq, proven_iff.mpr ?_⟩
  rw [unclesEq]
  intro uncle member
  rw [List.mem_singleton.mp member]
  decide +kernel

/-- It also accepts one whose total difficulty is the one that its uncle claims. -/
theorem uncle_work_unproven :
    bareStart.verdict bareProtocol [uncleBlock] = some .accepted ∧
      bareUncle ∈ uncleBlock.counted ∧ bareUncle.difficulty = 2 ^ 200 ∧
      ¬bareUncle.Proven bareHash ∧
      (bareStart.present bareProtocol [uncleBlock]).map Validator.td = some (2 ^ 200 + 1) := by
  refine ⟨by decide +kernel, List.mem_cons_self, rfl, by decide +kernel, by decide +kernel⟩

end Thelonious
