import Thelonious.Chain.Processing
import Thelonious.Lib.LeadingChain

/-!
# The block pool

What `chainThread` takes from the pool for `TestChain`.  The blocks come from a map and are
sorted by number, so that blocks of the same number are in any order.  The second loop
looks at a block and the one before it, but cuts the list off in front of the latter:
the last block of every chain with something behind it is left out.
-/

namespace Thelonious

open LeadingChain

/-- `HasBlock` -/
def hasBlock (db : Database) (hash : Bytes) : Bool := (db.get hash).length ≠ 0

namespace BlockPool

variable (sha3Bin : Bytes → Bytes) (db : Database)

/-- The first loop: the blocks from the first one on whose parent is in the database. -/
def skip (blocks : List Block) : List Block :=
  match blocks.findIdx? fun block => hasBlock db block.header.prevHash with
  | some i => blocks.drop i
  | none => blocks

/-- The second loop, at the element `i` of `blocks[1:]`; the block before it is the `i`th. -/
def cut : List Block → Nat → Option Nat
  | before :: block :: rest, i =>
      if block.header.prevHash ≠ before.hash sha3Bin then some i else cut (block :: rest) (i + 1)
  | _, _ => none

/-- What is passed to `TestChain`, unless it is empty. -/
def chain (blocks : List Block) : List Block :=
  match skip db blocks with
  | [] => []
  | first :: rest =>
      if hasBlock db first.header.prevHash then
        match cut sha3Bin (first :: rest) 0 with
        | some i => (first :: rest).take i
        | none => first :: rest
      else []

/-- The second block is on top of the first. -/
def Follows (before block : Block) : Prop := block.header.prevHash = before.hash sha3Bin

instance : DecidableRel (Follows sha3Bin) := fun before block =>
  inferInstanceAs (Decidable (block.header.prevHash = before.hash sha3Bin))

/-- The blocks that could be handed over, if they are a chain. -/
def usable (blocks : List Block) : List Block :=
  blocks.dropWhile fun block => !hasBlock db block.header.prevHash

variable {sha3Bin db}

theorem cut_eq (blocks : List Block) (i : Nat) :
    cut sha3Bin blocks i = (gap (Follows sha3Bin) blocks).map (· + i) := by
  induction blocks generalizing i with
  | nil => rfl
  | cons before rest hypothesis =>
      cases rest with
      | nil => rfl
      | cons block rest =>
          rw [cut, gap]
          by_cases follows : Follows sha3Bin before block
          · have same : ¬ block.header.prevHash ≠ before.hash sha3Bin := not_not.mpr follows
            rw [if_neg same, if_pos follows, hypothesis, Option.map_map]
            congr 1
            funext position
            simp only [Function.comp_apply]
            omega
          · have other : block.header.prevHash ≠ before.hash sha3Bin := follows
            rw [if_pos other, if_neg follows, Option.map_some, Nat.zero_add]

theorem usable_eq_nil {blocks : List Block} :
    usable db blocks = [] ↔ ∀ block ∈ blocks, hasBlock db block.header.prevHash = false := by
  rw [usable, List.dropWhile_eq_nil_iff]
  simp

/-- The first loop skips what cannot be used, unless there is nothing else. -/
theorem skip_eq (blocks : List Block) :
    skip db blocks = usable db blocks ∨ usable db blocks = [] ∧ skip db blocks = blocks := by
  unfold skip
  split
  · rename_i i found
    obtain ⟨-, rfl⟩ := List.findIdx?_eq_some_iff_findIdx_eq.mp found
    left
    rw [usable, List.dropWhile_eq_drop_findIdx_not]
    simp
  · rename_i none
    right
    exact ⟨usable_eq_nil.mpr fun block member => by
      simpa using List.findIdx?_eq_none_iff.mp none block member, rfl⟩

theorem stored_of_usable {blocks rest : List Block} {first : Block}
    (usableEq : usable db blocks = first :: rest) : hasBlock db first.header.prevHash = true := by
  have head := List.head?_dropWhile_not (fun block => !hasBlock db block.header.prevHash) blocks
  rw [← usable, usableEq] at head
  simpa using head

/-- What is handed over, without the indices. -/
theorem chain_eq (blocks : List Block) :
    chain sha3Bin db blocks =
      match gap (Follows sha3Bin) (usable db blocks) with
      | some i => (usable db blocks).take i
      | none => usable db blocks := by
  unfold chain
  rcases @skip_eq db blocks with same | ⟨nothing, whole⟩
  · rw [same]
    cases usableEq : usable db blocks with
    | nil => rfl
    | cons first rest =>
        dsimp only
        rw [if_pos (stored_of_usable usableEq), cut_eq]
        cases gap (Follows sha3Bin) (first :: rest) with
        | none => rfl
        | some i => rfl
  · rw [whole, nothing]
    cases blocks with
    | nil => rfl
    | cons first rest =>
        have missing := usable_eq_nil.mp nothing first List.mem_cons_self
        dsimp only
        rw [if_neg (by simp [missing])]
        rfl

/-- The longest chain is handed over exactly when it is everything there is, from the first block
on with a parent in the database; and something is handed over exactly when that block is
alone, or the next one is on top of it. -/
theorem chain_isLongest_iff (sha3Bin : Bytes → Bytes) (db : Database) (blocks : List Block) :
    (IsLongest (Follows sha3Bin) (usable db blocks) (chain sha3Bin db blocks) ↔
      (usable db blocks).IsChain (Follows sha3Bin)) ∧
    (chain sha3Bin db blocks ≠ [] ↔
      (∃ block ∈ blocks, hasBlock db block.header.prevHash = true) ∧
        ((usable db blocks).take 2).IsChain (Follows sha3Bin)) := by
  rw [chain_eq]
  constructor
  case left =>
    cases found : gap (Follows sha3Bin) (usable db blocks) with
    | none =>
        have chained := gap_eq_none_iff.mp found
        exact iff_of_true (.refl chained) chained
    | some i => exact iff_of_false (not_isLongest_take found) (of_gap_eq_some found).2.2
  case right =>
    have stored : (∃ block ∈ blocks, hasBlock db block.header.prevHash = true) ↔
        usable db blocks ≠ [] := by
      rw [ne_eq, usable_eq_nil]
      simp
    rw [stored]
    cases usable db blocks with
    | nil => simp [gap]
    | cons first rest =>
        cases rest with
        | nil => simp [gap]
        | cons second rest =>
            rw [gap]
            by_cases follows : Follows sha3Bin first second
            · rw [if_pos follows]
              cases gap (Follows sha3Bin) (second :: rest) with
              | none => simp [follows]
              | some i => simp [follows]
            · rw [if_neg follows]
              simp [follows]

/-- Two blocks on genesis, of the same number: nothing is handed over in either order. -/
theorem siblings_stall :
    hasBlock (Database.put ∅ (bareGenesis.hash bareHash) [1]) (bareBlock 1).header.prevHash = true ∧
      hasBlock (Database.put ∅ (bareGenesis.hash bareHash) [1]) uncleBlock.header.prevHash = true ∧
      (bareBlock 1).header.number = uncleBlock.header.number ∧
      (bareBlock 1).hash bareHash ≠ uncleBlock.hash bareHash ∧
      chain bareHash (Database.put ∅ (bareGenesis.hash bareHash) [1])
        [bareBlock 1, uncleBlock] = [] ∧
      chain bareHash (Database.put ∅ (bareGenesis.hash bareHash) [1])
        [uncleBlock, bareBlock 1] = [] := by
  decide +kernel

end BlockPool

end Thelonious
