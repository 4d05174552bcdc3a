import Mathlib

/-!
# Big-endian byte strings

Natural numbers written as byte strings, most significant byte first and
without leading zero bytes, and read back from byte strings of any shape.
-/

namespace BigEndian

/-- The shortest big-endian byte string of `number`; zero is the empty one. -/
def digits (number : Nat) : List UInt8 :=
  ((Nat.digits 256 number).map UInt8.ofNat).reverse

/-- The number a byte string denotes, leading zero bytes allowed. -/
def value (bytes : List UInt8) : Nat :=
  bytes.foldl (fun total byte => total * 256 + byte.toNat) 0

@[simp] theorem digits_zero : digits 0 = [] := by
  simp [digits]

@[simp] theorem value_nil : value [] = 0 := rfl

theorem value_append_singleton (bytes : List UInt8) (byte : UInt8) :
    value (bytes ++ [byte]) = value bytes * 256 + byte.toNat := by
  simp [value]

private theorem ofDigits_map_toNat (bytes : List UInt8) :
    Nat.ofDigits 256 (bytes.map UInt8.toNat) = value bytes.reverse := by
  induction bytes with
  | nil => rfl
  | cons byte bytes induction =>
      rw [List.map_cons, Nat.ofDigits_cons, induction, List.reverse_cons,
        value_append_singleton]
      omega

private theorem toNat_ofNat_digit {number digit : Nat}
    (member : digit ∈ Nat.digits 256 number) :
    (UInt8.ofNat digit).toNat = digit := by
  have small : digit < 256 := Nat.digits_lt_base (by decide) member
  rw [UInt8.toNat_ofNat']
  exact Nat.mod_eq_of_lt small

@[simp] theorem value_digits (number : Nat) : value (digits number) = number := by
  have restored :
      ((Nat.digits 256 number).map UInt8.ofNat).map UInt8.toNat =
        Nat.digits 256 number := by
    rw [List.map_map]
    conv_rhs => rw [← List.map_id (Nat.digits 256 number)]
    apply List.map_congr_left
    intro digit member
    exact toNat_ofNat_digit member
  rw [digits, ← ofDigits_map_toNat, restored, Nat.ofDigits_digits]

theorem value_lt (bytes : List UInt8) : value bytes < 256 ^ bytes.length := by
  rw [← List.reverse_reverse bytes, ← ofDigits_map_toNat]
  have bound : Nat.ofDigits 256 (bytes.reverse.map UInt8.toNat) <
      256 ^ (bytes.reverse.map UInt8.toNat).length := by
    apply Nat.ofDigits_lt_base_pow_length (by decide)
    intro digit member
    obtain ⟨byte, -, rfl⟩ := List.mem_map.mp member
    exact byte.toNat_lt
  simpa using bound

theorem value_replicate_zero_append (count : Nat) (bytes : List UInt8) :
    value (List.replicate count 0 ++ bytes) = value bytes := by
  induction count with
  | zero => rfl
  | succ count induction =>
      rw [List.replicate_succ, List.cons_append]
      simpa [value] using induction

theorem toNat_of_getElem? {bytes : List UInt8} {position : Nat} {byte : UInt8}
    (found : bytes[position]? = some byte) :
    byte.toNat = value bytes / 256 ^ (bytes.length - 1 - position) % 256 := by
  induction bytes using List.reverseRecOn with
  | nil => cases found
  | append_singleton bytes last induction =>
      have last_lt := last.toNat_lt
      rw [value_append_singleton, List.length_append, List.length_singleton, Nat.add_sub_cancel]
      by_cases inside : position < bytes.length
      · rw [List.getElem?_append_left inside] at found
        have further : bytes.length - position = bytes.length - 1 - position + 1 := by omega
        rw [induction found, further, Nat.pow_succ', ← Nat.div_div_eq_div_mul]
        congr 2
        omega
      · have atEnd : position = bytes.length := by
          have bound := (List.getElem?_eq_some_iff.mp found).1
          simp only [List.length_append, List.length_singleton] at bound
          omega
        subst atEnd
        obtain rfl : last = byte := by simpa using found
        rw [Nat.sub_self, Nat.pow_zero, Nat.div_one]
        omega

theorem eq_of_value_eq {left right : List UInt8} (length : left.length = right.length)
    (same : value left = value right) : left = right := by
  have reversed : left.reverse.map UInt8.toNat = right.reverse.map UInt8.toNat := by
    apply Nat.ofDigits_inj_of_len_eq (b := 256) (by decide)
    · simp [length]
    · intro digit member
      obtain ⟨byte, -, rfl⟩ := List.mem_map.mp member
      exact byte.toNat_lt
    · intro digit member
      obtain ⟨byte, -, rfl⟩ := List.mem_map.mp member
      exact byte.toNat_lt
    · rw [ofDigits_map_toNat, ofDigits_map_toNat, List.reverse_reverse, List.reverse_reverse,
        same]
  have injective : Function.Injective UInt8.toNat := fun _ _ => UInt8.toNat_inj.mp
  exact List.reverse_injective (List.map_injective_iff.mpr injective reversed)

theorem digits_injective : Function.Injective digits := by
  intro left right same
  rw [← value_digits left, same, value_digits]

theorem length_digits_le_iff {number width : Nat} :
    (digits number).length ≤ width ↔ number < 256 ^ width := by
  simpa [digits] using Nat.digits_length_le_iff (b := 256) (by decide) number

@[simp] theorem digits_eq_nil_iff {number : Nat} :
    digits number = [] ↔ number = 0 := by
  simp [digits, Nat.digits_eq_nil_iff_eq_zero]

theorem length_digits_pos {number : Nat} (positive : 0 < number) :
    0 < (digits number).length := by
  rw [List.length_pos_iff]
  intro empty
  rw [digits_eq_nil_iff] at empty
  omega

end BigEndian
