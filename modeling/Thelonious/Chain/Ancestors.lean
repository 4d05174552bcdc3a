import Thelonious.Chain.Acceptance

/-!
# Numbers along the chain

`EthModel` checks the difficulty, the proof of work and the sign of the difference of
the times, which is an `int64`; it does not look at the number of a block.  Where the
blocks that come in have the number after their parent's and times below `2 ^ 63`, every
accepted block extends its parent, and `GetBlockByNumber` returns the ancestor of the
head with the number.
-/

namespace Thelonious

namespace Validator

variable {protocol : Protocol} {sha3Bin : Bytes → Bytes} {sources : List Block}
  {v before after : Validator}

/-- `GetBlock` finds the parent under the `PrevHash` of the block. -/
def HasParent (sha3Bin : Bytes → Bytes) (v : Validator) (block parent : Block) : Prop :=
  v.lookup sha3Bin block.header.prevHash = some parent

/-- The blocks that are reached by going from parent to parent. -/
def Ancestor (sha3Bin : Bytes → Bytes) (v : Validator) : Block → Block → Prop :=
  Relation.ReflTransGen (v.HasParent sha3Bin)

/-- Whatever the `GasUsed` of the parent is taken to be, a block has the number after its
parent's.  Numbers fit `uint64`, and times are not negative. -/
structure Orderly (sha3Bin : Bytes → Bytes) (sources : List Block) : Prop where
  next {block parent : Block} {gasUsed : Int} : block ∈ sources → parent ∈ sources →
    (parent.setGasUsed gasUsed).hash sha3Bin = block.header.prevHash →
      block.header.number = parent.header.number + 1
  number {block : Block} : block ∈ sources →
    0 ≤ block.header.number ∧ block.header.number < 2 ^ 64
  time {block : Block} : block ∈ sources → 0 ≤ block.header.time ∧ block.header.time < 2 ^ 63

/-- What is asked of a block that is accepted on its parent. -/
structure Extends (model : EthModel) (parent block : Block) : Prop where
  number : block.header.number = parent.header.number + 1
  time : parent.header.time ≤ block.header.time
  difficulty : block.header.difficulty = model.difficulty block.header parent.header
  proven : block.header.Proven model.sha3Bin

variable {block : Block}

/-! ### Numbers and times of the blocks that are known -/

theorem Orderly.number_of_version (orderly : Orderly sha3Bin sources)
    (version : block.VersionOf sources) :
    0 ≤ block.header.number ∧ block.header.number < 2 ^ 64 := by
  obtain ⟨source, member, gasUsed, rfl⟩ := version
  have bounds := orderly.number member
  exact bounds

theorem Orderly.time_of_version (orderly : Orderly sha3Bin sources)
    (version : block.VersionOf sources) : 0 ≤ block.header.time ∧ block.header.time < 2 ^ 63 := by
  obtain ⟨source, member, gasUsed, rfl⟩ := version
  have bounds := orderly.time member
  exact bounds

/-- The parent that is found has the number before. -/
theorem Orderly.number_eq (orderly : Orderly sha3Bin sources)
    (familiar : Familiar sha3Bin sources v) {parent : Block} (version : block.VersionOf sources)
    (found : v.HasParent sha3Bin block parent) :
    block.header.number = parent.header.number + 1 := by
  obtain ⟨source, member, gasUsed, rfl⟩ := version
  obtain ⟨origin, known, ⟨current, rfl⟩, past, hashEq⟩ := familiar.named_of_lookup found
  have follows : source.header.number = origin.header.number + 1 :=
    orderly.next member known hashEq.symm
  exact follows

/-- The rules and the order of the sources make an accepted block extend its parent. -/
theorem Orderly.extends_of_validates (orderly : Orderly sha3Bin sources)
    (familiar : Familiar sha3Bin sources v) {model : EthModel} {parent : Block}
    (version : block.VersionOf sources) (found : v.HasParent sha3Bin block parent)
    (validates : model.Validates parent.header block) : Extends model parent block := by
  have parentVersion := (familiar.named_of_lookup found).versionOf
  obtain ⟨nonneg, small⟩ := orderly.time_of_version version
  obtain ⟨parentNonneg, parentSmall⟩ := orderly.time_of_version parentVersion
  constructor
  case number => exact orderly.number_eq familiar version found
  case time =>
    exact (time_le_of_timeSince nonneg parentNonneg parentSmall small).mp validates.times
  case difficulty => exact validates.difficulty
  case proven => exact validates.proven

/-! ### `GetBlockByNumber` -/

theorem uint64_number (orderly : Orderly sha3Bin sources) (version : block.VersionOf sources) :
    (uint64 block.header.number : Int) = block.header.number := by
  obtain ⟨nonneg, small⟩ := orderly.number_of_version version
  rw [uint64, Nat.mod_eq_of_lt (by omega)]
  omega

/-- Ancestors have smaller numbers, so the block is the only one with its own. -/
theorem number_le_of_ancestor (orderly : Orderly sha3Bin sources)
    (familiar : Familiar sha3Bin sources v) {ancestor : Block} (version : block.VersionOf sources)
    (reached : v.Ancestor sha3Bin block ancestor) :
    ancestor = block ∨ ancestor.header.number < block.header.number := by
  induction reached using Relation.ReflTransGen.head_induction_on with
  | refl => exact .inl rfl
  | head found later induction =>
      have numberEq := orderly.number_eq familiar version found
      rcases induction (familiar.named_of_lookup found).versionOf with rfl | smaller
      · exact .inr (by omega)
      · exact .inr (by omega)

theorem findNumber_spec (orderly : Orderly sha3Bin sources) (familiar : Familiar sha3Bin sources v)
    (num : UInt64) (version : block.VersionOf sources) {rounds : Nat}
    (enough : block.header.number < rounds) :
    ∃ found, v.findNumber sha3Bin num rounds block = some found ∧
      ∀ ancestor, found = some ancestor ↔
        v.Ancestor sha3Bin block ancestor ∧ ancestor.header.number = num.toNat := by
  induction rounds generalizing block with
  | zero =>
      have nonneg := (orderly.number_of_version version).1
      omega
  | succ rounds induction =>
      have numberEq := uint64_number orderly version
      unfold findNumber
      by_cases same : uint64 block.header.number = num.toNat
      · rw [if_pos same]
        refine ⟨some block, rfl, ?_⟩
        intro ancestor
        constructor
        · intro isBlock
          cases isBlock
          exact ⟨.refl, by omega⟩
        · rintro ⟨reached, isNum⟩
          rcases number_le_of_ancestor orderly familiar version reached with rfl | smaller
          · rfl
          · omega
      · rw [if_neg same]
        cases found : v.lookup sha3Bin block.header.prevHash with
        | none =>
            refine ⟨none, rfl, ?_⟩
            intro ancestor
            constructor
            · intro impossible
              cases impossible
            · rintro ⟨reached, isNum⟩
              rcases Relation.ReflTransGen.cases_head reached with rfl | ⟨parent, parentEq, -⟩
              · omega
              · cases found.symm.trans parentEq
        | some parent =>
            have parentEq := orderly.number_eq familiar version found
            obtain ⟨result, resultEq, result_iff⟩ :=
              induction (familiar.named_of_lookup found).versionOf (by omega)
            refine ⟨result, resultEq, ?_⟩
            intro ancestor
            rw [result_iff]
            constructor
            · rintro ⟨reached, isNum⟩
              exact ⟨.head found reached, isNum⟩
            · rintro ⟨reached, isNum⟩
              rcases Relation.ReflTransGen.cases_head reached with rfl | ⟨other, otherEq, later⟩
              · omega
              · cases found.symm.trans otherEq
                exact ⟨later, isNum⟩

/-- `GetBlockByNumber` ends, and returns the ancestor of the head with the number if there is
one. -/
theorem getBlockByNumber_spec (orderly : Orderly sha3Bin sources)
    (familiar : Familiar sha3Bin sources v) (num : UInt64) {rounds : Nat}
    (enough : (v.blocks v.currentBlock).header.number < rounds) :
    ∃ found, v.getBlockByNumber sha3Bin num rounds = some found ∧
      ∀ block, found = some block ↔
        v.Ancestor sha3Bin (v.blocks v.currentBlock) block ∧ block.header.number = num.toNat := by
  obtain ⟨found, foundEq, found_iff⟩ :=
    findNumber_spec orderly familiar num (familiar.block v.currentBlock) enough
  refine ⟨found, ?_, found_iff⟩
  rw [getBlockByNumber, foundEq]
  cases found with
  | none => rfl
  | some block =>
      obtain ⟨-, numberEq⟩ := (found_iff block).mp rfl
      have kept : ¬(uint64 block.header.number = 0 ∧ num ≠ 0) := by
        rintro ⟨zero, nonzero⟩
        rw [numberEq, uint64, Int.natAbs_natCast, Nat.mod_eq_of_lt num.toNat_lt] at zero
        exact nonzero (UInt64.toNat_inj.mp zero)
      change some (if _ then _ else _) = _
      rw [if_neg kept]

/-! ### The blocks of a new chain -/

theorem newChain_frame (v : Validator) (founds : List Found) :
    (∀ l, l < v.nextLink → (v.newChain founds).1.links l = v.links l) ∧
      ∀ ref, ref < v.nextBlock → (v.newChain founds).1.blocks ref = v.blocks ref := by
  induction founds generalizing v with
  | nil => exact ⟨fun _ _ => rfl, fun _ _ => rfl⟩
  | cons found founds induction =>
      obtain ⟨links, blocks⟩ := induction ((v.adopt found).1.newLink (v.adopt found).2).1
      constructor
      · intro l bound
        rw [← adopt_nextLink v found] at bound
        have kept := (links l (bound.trans (Nat.lt_succ_self _))).trans
          (newLink_links_of_lt _ bound)
        exact kept.trans (congrFun (adopt_links v found) l)
      · intro ref bound
        have kept := blocks ref (bound.trans_le (le_nextBlock_adopt v found))
        exact kept.trans (adopt_blocks_of_lt bound)

theorem load_block (v : Validator) (blocks : List Block) {i : Nat}
    (listed : blocks[i]? = some block) :
    ∃ l, (v.load blocks).2[i]? = some l ∧ (v.load blocks).1.blockOf l = block := by
  induction blocks generalizing v i with
  | nil => cases listed
  | cons first blocks induction =>
      cases i with
      | succ i => exact induction _ listed
      | zero =>
          cases listed
          have blockEq : (v.adopt (.stored block)).1.blocks v.nextBlock = block :=
            Function.update_self ..
          obtain ⟨links, kept⟩ := newChain_frame
            ((v.adopt (.stored block)).1.newLink (v.adopt (.stored block)).2).1
            (blocks.map .stored)
          rw [load, List.map_cons, newChain_cons]
          refine ⟨v.nextLink, rfl, ?_⟩
          dsimp only
          rw [blockOf, links v.nextLink (Nat.lt_succ_self _),
            show v.nextLink = (v.adopt (.stored block)).1.nextLink from rfl, newLink_links_self]
          exact (kept v.nextBlock (Nat.lt_succ_self _)).trans blockEq

theorem bareHash_ne_zero (data : Bytes) : bareHash data ≠ List.replicate 32 0 := by
  intro same
  have listed : ∀ sample ∈ bareDigests, sample.2 ≠ List.replicate 32 0 := by
    decide +kernel
  exact listed _ (mem_of_sampled (by decide) same) rfl

/-- Only one header has the hash. -/
theorem prevHash_of_bareHash {hash : Bytes} (length : hash.length = 32) (known : Header)
    (short : (encode known.value).length < 2 ^ 64)
    (listed : ∀ sample ∈ bareDigests, sample.2 = hash → sample.1 = encode known.value)
    {gasUsed : Int} (same : (block.setGasUsed gasUsed).hash bareHash = hash) :
    block.header.prevHash = known.prevHash :=
  show (block.setGasUsed gasUsed).header.prevHash = _ from
    Header.prevHash_eq_of_encode short (listed _ (mem_of_sampled length same) rfl)

/-- The block on the block on genesis. -/
def secondBlock : Block :=
  bareHeir 0x14ab209bed729d8aca3a395710907db3cf4713d503006b7c884fb6c77c75bc43

theorem orderly_secondBlock : Orderly bareHash [bareGenesis, bareBlock 1, secondBlock] where
  next {block parent gasUsed} blockMember parentMember hashEq := by
    simp only [List.mem_cons, List.not_mem_nil, or_false] at blockMember parentMember
    rcases blockMember with rfl | rfl | rfl
    · exact (bareHash_ne_zero _ hashEq).elim
    · have same : parent.header.prevHash = bareGenesis.header.prevHash :=
        prevHash_of_bareHash (by decide +kernel) _ (by decide +kernel) (by decide +kernel) hashEq
      rcases parentMember with rfl | rfl | rfl
      · rfl
      · exact absurd same (by decide +kernel)
      · exact absurd same (by decide +kernel)
    · have same : parent.header.prevHash = (bareBlock 1).header.prevHash :=
        prevHash_of_bareHash (by decide +kernel) _ (by decide +kernel) (by decide +kernel) hashEq
      rcases parentMember with rfl | rfl | rfl
      · exact absurd same (by decide +kernel)
      · rfl
      · exact absurd same (by decide +kernel)
  number {block} member := by
    fin_cases member <;> decide
  time {block} member := by
    fin_cases member <;> decide

end Validator

end Thelonious
