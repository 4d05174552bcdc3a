import Thelonious.Chain.EthModel

/-!
# The difficulties along a chain

`EthDifficulty` changes the difficulty of the parent by its 256th part, rounded down.  At 255
and below this is nothing: a chain that is once slow at 256 keeps the difficulty 255 for ever.
The time that a block is compared with is an `int64`, and may wrap around.
-/

namespace Thelonious

def IsInt64 (number : Int) : Prop := -2 ^ 63 ≤ number ∧ number < 2 ^ 63

/-- The block has the difficulty that `EthDifficulty` gives on top of its parent. -/
def HasEthDifficulty (target : Int) (parent block : Header) : Prop :=
  block.difficulty = ethDifficulty target block parent

instance (target : Int) : DecidableRel (HasEthDifficulty target) := fun parent block =>
  inferInstanceAs (Decidable (block.difficulty = ethDifficulty target block parent))

/-- The block comes before the target, counted from its parent. -/
def Early (target : Int) (parent block : Header) : Prop := block.time < parent.time + target

/-- The difficulty can grow, and the block comes before the time that the target really is:
the sum does not wrap around to something that is past already. -/
def Adjusts (target : Int) (parent block : Header) : Prop :=
  256 ≤ parent.difficulty ∧
    (parent.time + target < 2 ^ 63 ∨ block.time < parent.time + target - 2 ^ 64)

section Step

variable {target : Int} {parent block : Header}

theorem HasEthDifficulty.cases (follows : HasEthDifficulty target parent block) :
    int64 (parent.time + target) ≤ block.time ∧
        block.difficulty = parent.difficulty - parent.difficulty / 256 ∨
      block.time < int64 (parent.time + target) ∧
        block.difficulty = parent.difficulty + parent.difficulty / 256 := by
  have shift : parent.difficulty >>> (8 : Int) = parent.difficulty / 256 :=
    (Int.shiftRight_natCast_right _ 8).trans (Int.shiftRight_eq_div_pow _ 8)
  rw [HasEthDifficulty, ethDifficulty, adjustDifficulty, shift] at follows
  by_cases late : int64 (parent.time + target) ≤ block.time
  · rw [if_pos late] at follows
    exact .inl ⟨late, follows⟩
  · rw [if_neg late] at follows
    exact .inr ⟨not_le.mp late, follows⟩

theorem HasEthDifficulty.least (follows : HasEthDifficulty target parent block)
    (least : 255 ≤ parent.difficulty) : 255 ≤ block.difficulty := by
  rcases follows.cases with ⟨-, lower⟩ | ⟨-, higher⟩
  · omega
  · omega

theorem HasEthDifficulty.bounded (follows : HasEthDifficulty target parent block)
    (least : 255 ≤ parent.difficulty) :
    256 * |block.difficulty - parent.difficulty| ≤ parent.difficulty := by
  rcases follows.cases with ⟨-, lower⟩ | ⟨-, higher⟩
  · rw [lower, sub_sub_cancel_left, abs_neg, abs_of_nonneg (by omega)]
    omega
  · rw [higher, add_sub_cancel_left, abs_of_nonneg (by omega)]
    omega

/-- The time that an early block is compared with. -/
theorem lt_int64_iff (early : Early target parent block) (parentTime : IsInt64 parent.time)
    (blockTime : IsInt64 block.time) (isTarget : IsInt64 target) :
    block.time < int64 (parent.time + target) ↔
      parent.time + target < 2 ^ 63 ∨ block.time < parent.time + target - 2 ^ 64 := by
  unfold Early IsInt64 at *
  rw [int64, Int.bmod_def]
  omega

theorem HasEthDifficulty.lt_iff (follows : HasEthDifficulty target parent block)
    (least : 255 ≤ parent.difficulty) (early : Early target parent block)
    (parentTime : IsInt64 parent.time) (blockTime : IsInt64 block.time)
    (isTarget : IsInt64 target) :
    parent.difficulty < block.difficulty ↔ Adjusts target parent block := by
  rw [Adjusts, ← lt_int64_iff early parentTime blockTime isTarget]
  rcases follows.cases with ⟨late, lower⟩ | ⟨before, higher⟩
  · omega
  · omega

end Step

/-- Along every chain on top of a genesis block with the difficulty `2 ^ d`, no difficulty is
zero and none changes by more than its 256th part.  An early block has a larger difficulty than
its parent exactly when that of the parent is at least 256 and the comparison of the times
does not wrap around. -/
theorem ethDifficulty_along_chain (d : Nat) (large : 8 ≤ d) (target : Int)
    (isTarget : IsInt64 target) (genesis : Header) (start : genesis.difficulty = 2 ^ d)
    (blocks : List Header) (times : ∀ header ∈ genesis :: blocks, IsInt64 header.time)
    (chain : (genesis :: blocks).IsChain (HasEthDifficulty target)) :
    (∀ header ∈ genesis :: blocks, 1 ≤ header.difficulty ∧
      ∀ sha3Bin hash nonce, easyPowVerify sha3Bin hash header.difficulty nonce ≠ none) ∧
    (genesis :: blocks).IsChain (fun parent block =>
      256 * |block.difficulty - parent.difficulty| ≤ parent.difficulty) ∧
    (genesis :: blocks).IsChain (fun parent block => Early target parent block →
      (parent.difficulty < block.difficulty ↔ Adjusts target parent block)) := by
  have least : ∀ header ∈ genesis :: blocks, 255 ≤ header.difficulty := by
    apply chain.induction (fun header => 255 ≤ header.difficulty)
    · intro parent block follows least
      exact follows.least least
    · have power : 2 ^ 8 ≤ 2 ^ d := Nat.pow_le_pow_right (by decide) large
      intro _
      rw [List.head_cons, start]
      norm_cast
      omega
  refine ⟨?_, ?_, ?_⟩
  · intro header member
    have positive := least header member
    refine ⟨by omega, fun sha3Bin hash nonce => ?_⟩
    rw [easyPowVerify, if_neg (by omega)]
    exact Option.some_ne_none _
  · apply chain.imp_of_mem_imp
    intro parent block parentMember _ follows
    exact follows.bounded (least parent parentMember)
  · apply chain.imp_of_mem_imp
    intro parent block parentMember blockMember follows early
    exact follows.lt_iff (least parent parentMember) early (times parent parentMember)
      (times block blockMember) isTarget

/-- A header of which only the difficulty and the time matter. -/
def timedHeader (difficulty time : Int) : Header :=
  ⟨[], [], [], .str [], [], difficulty, 0, 0, 0, 0, time, [], []⟩

/-- A slow block and an early one, on top of a genesis block with the difficulty 512. -/
theorem ethDifficulty_of_512 :
    ([timedHeader 512 0, timedHeader 510 10, timedHeader 511 11].IsChain fun parent block =>
      256 * |block.difficulty - parent.difficulty| ≤ parent.difficulty) ∧
    [timedHeader 512 0, timedHeader 510 10, timedHeader 511 11].IsChain fun parent block =>
      Early 10 parent block →
        (parent.difficulty < block.difficulty ↔ Adjusts 10 parent block) :=
  (ethDifficulty_along_chain 9 (by decide) 10 (by unfold IsInt64; decide) (timedHeader 512 0) rfl
    [timedHeader 510 10, timedHeader 511 11] (by unfold IsInt64; decide) (by decide)).2

/-- After a slow block on top of the difficulty 256, the early block that comes next has the
same difficulty as its parent. -/
theorem ethDifficulty_stays_255 :
    [timedHeader (2 ^ 8) 0, timedHeader 255 10, timedHeader 255 11].IsChain
      (HasEthDifficulty 10) ∧
    Early 10 (timedHeader 255 10) (timedHeader 255 11) ∧
    ¬ (timedHeader 255 10).difficulty < (timedHeader 255 11).difficulty := by
  unfold Early
  decide

end Thelonious
