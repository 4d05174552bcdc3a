import Mathlib

/-!
# Signed words

A word is a number from `0` to `2 * half - 1`; in two's complement the upper half
stands for the negative numbers.  The results say for which operands an unsigned
division or comparison gives the word of the signed one.
-/

namespace SignedWord

variable {half y x : Int}

/-- The number that a word stands for. -/
def toSigned (half x : Int) : Int := if x < half then x else x - 2 * half

theorem toSigned_low (low : x < half) : toSigned half x = x := if_pos low

theorem toSigned_high (high : half ≤ x) : toSigned half x = -(2 * half - x) := by
  rw [toSigned, if_neg (not_lt.mpr high)]
  omega

theorem neg_emod {q : Int} (nonneg : 0 ≤ q) (small : q < 2 * half) :
    -q % (2 * half) = if q = 0 then 0 else 2 * half - q := by
  split
  · rename_i zero
    rw [zero]
    rfl
  · rename_i nonzero
    rw [← Int.add_emod_right, Int.emod_eq_of_lt (by omega) (by omega)]
    omega

theorem lt_iff (y_lt : y < 2 * half) (x_lt : x < 2 * half) (y_nonneg : 0 ≤ y) (x_nonneg : 0 ≤ x) :
    (y < x ↔ toSigned half y < toSigned half x) ↔ (y < half ↔ x < half) := by
  unfold toSigned
  split <;> split <;> omega

/-- The operands whose unsigned quotient is the word of the signed one. -/
def DivAgrees (half y x : Int) : Prop :=
  x = 0 ∨ y = x ∨ (y < half ∧ x < half) ∨ (y < half ∧ half ≤ x ∧ y + x < 2 * half) ∨
    (half ≤ y ∧ x = 1)

section Division

variable (y_nonneg : 0 ≤ y) (y_lt : y < 2 * half) (x_nonneg : 0 ≤ x) (x_lt : x < 2 * half)

include y_nonneg x_nonneg in
theorem div_low_low (yLow : y < half) (xLow : x < half) :
    (toSigned half y).tdiv (toSigned half x) % (2 * half) = y / x := by
  rw [toSigned_low yLow, toSigned_low xLow, Int.tdiv_eq_ediv_of_nonneg y_nonneg]
  have quotient_le := Int.ediv_le_self x y_nonneg
  exact Int.emod_eq_of_lt (Int.ediv_nonneg y_nonneg x_nonneg) (by omega)

include y_nonneg x_lt in
theorem div_low_high (yLow : y < half) (xHigh : half ≤ x) :
    (toSigned half y).tdiv (toSigned half x) % (2 * half) = y / x ↔ y + x < 2 * half := by
  have quotient_le := Int.ediv_le_self (2 * half - x) y_nonneg
  have quotient_nonneg : 0 ≤ y / (2 * half - x) := Int.ediv_nonneg y_nonneg (by omega)
  have unsigned : y / x = 0 := Int.ediv_eq_zero_of_lt y_nonneg (by omega)
  rw [toSigned_low yLow, toSigned_high xHigh, Int.tdiv_neg, Int.tdiv_eq_ediv_of_nonneg y_nonneg,
    neg_emod quotient_nonneg (by omega), unsigned]
  have zero_iff : y / (2 * half - x) = 0 ↔ y < 2 * half - x := by
    rw [Int.ediv_eq_iff_of_pos (by omega)]
    omega
  split
  · rename_i zero
    have small := zero_iff.mp zero
    exact ⟨fun _ => by omega, fun _ => rfl⟩
  · rename_i nonzero
    have large := mt zero_iff.mpr nonzero
    constructor <;> intro <;> omega

include y_lt x_nonneg in
theorem div_high_low (yHigh : half ≤ y) (xLow : x < half) (nonzero : x ≠ 0) :
    (toSigned half y).tdiv (toSigned half x) % (2 * half) = y / x ↔ x = 1 := by
  have quotient_nonneg : 0 ≤ (2 * half - y) / x := Int.ediv_nonneg (by omega) x_nonneg
  have quotient_le := Int.ediv_le_self x (show (0 : Int) ≤ 2 * half - y by omega)
  rw [toSigned_high yHigh, toSigned_low xLow, Int.neg_tdiv,
    Int.tdiv_eq_ediv_of_nonneg (by omega), neg_emod quotient_nonneg (by omega)]
  constructor
  case mpr =>
    intro one
    rw [one, Int.ediv_one, Int.ediv_one, if_neg (by omega)]
    omega
  case mp =>
    intro same
    by_contra many
    -- the unsigned quotient is below `half`, the word of the signed one is zero or above
    have twice : half * 2 ≤ half * x := Int.mul_le_mul_of_nonneg_left (by omega) (by omega)
    have below : y / x < half := Int.ediv_lt_of_lt_mul (by omega) (by omega)
    have above : 1 ≤ y / x := Int.le_ediv_of_mul_le (by omega) (by omega)
    have most : (2 * half - y) / x < half := Int.ediv_lt_of_lt_mul (by omega) (by omega)
    split at same <;> omega

include y_lt x_lt in
theorem div_high_high (yHigh : half ≤ y) (xHigh : half ≤ x) :
    (toSigned half y).tdiv (toSigned half x) % (2 * half) = y / x ↔ y = x := by
  have quotient_nonneg : 0 ≤ (2 * half - y) / (2 * half - x) :=
    Int.ediv_nonneg (by omega) (by omega)
  have quotient_le := Int.ediv_le_self (2 * half - x) (show (0 : Int) ≤ 2 * half - y by omega)
  rw [toSigned_high yHigh, toSigned_high xHigh, Int.neg_tdiv_neg,
    Int.tdiv_eq_ediv_of_nonneg (by omega), Int.emod_eq_of_lt quotient_nonneg (by omega)]
  rcases lt_trichotomy y x with less | same | more
  · have unsigned : y / x = 0 := Int.ediv_eq_zero_of_lt (by omega) less
    have least : 1 ≤ (2 * half - y) / (2 * half - x) :=
      Int.le_ediv_of_mul_le (by omega) (by omega)
    constructor <;> intro <;> omega
  · rw [same, Int.ediv_self (by omega), Int.ediv_self (by omega)]
    exact iff_of_true rfl rfl
  · have least : 1 ≤ y / x := Int.le_ediv_of_mul_le (by omega) (by omega)
    have signed : (2 * half - y) / (2 * half - x) = 0 :=
      Int.ediv_eq_zero_of_lt (by omega) (by omega)
    constructor <;> intro <;> omega

include y_nonneg y_lt x_nonneg x_lt in
theorem div_iff :
    (toSigned half y).tdiv (toSigned half x) % (2 * half) = y / x ↔ DivAgrees half y x := by
  unfold DivAgrees
  by_cases yLow : y < half
  · by_cases xLow : x < half
    · exact iff_of_true (div_low_low y_nonneg x_nonneg yLow xLow)
        (.inr (.inr (.inl ⟨yLow, xLow⟩)))
    · rw [div_low_high y_nonneg x_lt yLow (not_lt.mp xLow)]
      omega
  · by_cases xLow : x < half
    · by_cases zero : x = 0
      · subst zero
        rw [toSigned_low xLow, Int.tdiv_zero, Int.ediv_zero, Int.zero_emod]
        exact iff_of_true rfl (.inl rfl)
      · rw [div_high_low y_lt x_nonneg (not_lt.mp yLow) xLow zero]
        omega
    · rw [div_high_high y_lt x_lt (not_lt.mp yLow) (not_lt.mp xLow)]
      omega

end Division

/-- The operands whose unsigned remainder is the word of the signed one. -/
def ModAgrees (half y x : Int) : Prop :=
  y = x ∨ (y < half ∧ x < half) ∨ (y < half ∧ half ≤ x ∧ y + x < 2 * half) ∨
    (half ≤ y ∧ x < half ∧ x ∣ y ∧ x ∣ 2 * half)

section Remainder

variable (y_nonneg : 0 ≤ y) (y_lt : y < 2 * half) (x_pos : 0 < x) (x_lt : x < 2 * half)

include y_nonneg x_pos in
theorem mod_low_low (yLow : y < half) (xLow : x < half) :
    (toSigned half y).tmod (toSigned half x) % (2 * half) = y % x := by
  rw [toSigned_low yLow, toSigned_low xLow, Int.tmod_eq_emod_of_nonneg y_nonneg]
  have remainder_lt := Int.emod_lt_of_pos y x_pos
  exact Int.emod_eq_of_lt (Int.emod_nonneg y (by omega)) (by omega)

include y_nonneg x_lt in
theorem mod_low_high (yLow : y < half) (xHigh : half ≤ x) :
    (toSigned half y).tmod (toSigned half x) % (2 * half) = y % x ↔ y + x < 2 * half := by
  have remainder_lt := Int.emod_lt_of_pos y (show (0 : Int) < 2 * half - x by omega)
  have remainder_nonneg := Int.emod_nonneg y (show 2 * half - x ≠ 0 by omega)
  have unsigned : y % x = y := Int.emod_eq_of_lt y_nonneg (by omega)
  rw [toSigned_low yLow, toSigned_high xHigh, Int.tmod_neg, Int.tmod_eq_emod_of_nonneg y_nonneg,
    Int.emod_eq_of_lt remainder_nonneg (by omega), unsigned]
  constructor
  case mp =>
    intro same
    omega
  case mpr =>
    intro small
    exact Int.emod_eq_of_lt y_nonneg (by omega)

include y_lt x_pos in
theorem mod_high_low (yHigh : half ≤ y) (xLow : x < half) :
    (toSigned half y).tmod (toSigned half x) % (2 * half) = y % x ↔ x ∣ y ∧ x ∣ 2 * half := by
  have remainder_lt := Int.emod_lt_of_pos (2 * half - y) x_pos
  have remainder_nonneg := Int.emod_nonneg (2 * half - y) (show x ≠ 0 by omega)
  have unsigned_lt := Int.emod_lt_of_pos y x_pos
  rw [toSigned_high yHigh, toSigned_low xLow, Int.neg_tmod,
    Int.tmod_eq_emod_of_nonneg (by omega), neg_emod remainder_nonneg (by omega)]
  constructor
  case mp =>
    intro same
    split at same
    · rename_i zero
      have divides : x ∣ y := Int.dvd_of_emod_eq_zero same.symm
      refine ⟨divides, ?_⟩
      have total := Int.dvd_add (Int.dvd_of_emod_eq_zero zero) divides
      rwa [sub_add_cancel] at total
    · omega
  case mpr =>
    rintro ⟨divides, total⟩
    rw [if_pos (Int.emod_eq_zero_of_dvd (Int.dvd_sub total divides)),
      Int.emod_eq_zero_of_dvd divides]

include y_lt x_lt in
theorem mod_high_high (yHigh : half ≤ y) (xHigh : half ≤ x) :
    (toSigned half y).tmod (toSigned half x) % (2 * half) = y % x ↔ y = x := by
  have remainder_lt := Int.emod_lt_of_pos (2 * half - y) (show (0 : Int) < 2 * half - x by omega)
  have remainder_nonneg := Int.emod_nonneg (2 * half - y) (show 2 * half - x ≠ 0 by omega)
  rw [toSigned_high yHigh, toSigned_high xHigh, Int.tmod_neg, Int.neg_tmod,
    Int.tmod_eq_emod_of_nonneg (by omega), neg_emod remainder_nonneg (by omega)]
  rcases lt_trichotomy y x with less | same | more
  · rw [Int.emod_eq_of_lt (by omega) less]
    constructor
    case mp =>
      intro agree
      split at agree <;> omega
    case mpr => omega
  · rw [same, Int.emod_self, Int.emod_self, if_pos rfl]
    exact iff_of_true rfl rfl
  · have unsigned : y % x = y - x := by
      rw [← Int.sub_emod_right, Int.emod_eq_of_lt (by omega) (by omega)]
    rw [Int.emod_eq_of_lt (show (0 : Int) ≤ 2 * half - y by omega) (by omega),
      if_neg (by omega), unsigned]
    omega

include y_nonneg y_lt x_pos x_lt in
theorem mod_iff :
    (toSigned half y).tmod (toSigned half x) % (2 * half) = y % x ↔ ModAgrees half y x := by
  unfold ModAgrees
  by_cases yLow : y < half
  · by_cases xLow : x < half
    · exact iff_of_true (mod_low_low y_nonneg x_pos yLow xLow) (.inr (.inl ⟨yLow, xLow⟩))
    · rw [mod_low_high y_nonneg x_lt yLow (not_lt.mp xLow)]
      omega
  · by_cases xLow : x < half
    · rw [mod_high_low y_lt x_pos (not_lt.mp yLow) xLow]
      constructor
      · intro divides
        exact .inr (.inr (.inr ⟨not_lt.mp yLow, xLow, divides⟩))
      · rintro (same | low | low | ⟨-, -, divides⟩)
        · omega
        · omega
        · omega
        · exact divides
    · rw [mod_high_high y_lt x_lt (not_lt.mp yLow) (not_lt.mp xLow)]
      omega

end Remainder

end SignedWord
