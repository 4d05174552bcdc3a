import Thelonious.Util.Rlp

/-!
# Big integers and byte slices

The conversions of `big.Int`, `big.go` and `bytes.go` used by the state and the
virtual machine.
-/

namespace Thelonious

/-- `BigD` -/
def bigD (data : Bytes) : Int := BigEndian.value data

/-- `big.Int.Int64`, also the wrapped result of `int64` arithmetic. -/
def int64 (number : Int) : Int := number.bmod (2 ^ 64)

/-- `big.Int.Uint64`, which drops the sign. -/
def uint64 (number : Int) : Nat := number.natAbs % 2 ^ 64

theorem int64_natCast {number : Nat} (small : number < 2 ^ 63) : int64 number = number := by
  unfold int64
  rw [Int.bmod_def]
  have emod : (number : Int) % ((2 ^ 64 : Nat) : Int) = number := by omega
  rw [emod, if_pos (by omega)]

/-- An `int64` is at most the number it is made of, unless that is too small. -/
theorem int64_le {number : Int} (least : -2 ^ 63 ≤ number) : int64 number ≤ number := by
  unfold int64
  rw [Int.bmod_def]
  split <;> omega

theorem le_int64 (number : Int) : -2 ^ 63 ≤ int64 number := by
  unfold int64
  rw [Int.bmod_def]
  split <;> omega

theorem int64_lt (number : Int) : int64 number < 2 ^ 63 := by
  unfold int64
  rw [Int.bmod_def]
  split <;> omega

/-- `BigToBytes(num, 256)` -/
def bigToBytes (num : Int) : Bytes :=
  if 32 < (bigBytes num).length then bigBytes num
  else List.replicate (32 - (bigBytes num).length) 0 ++ bigBytes num

/-- `Address`: the last 20 bytes, padded on the left. -/
def address (slice : Bytes) : Bytes :=
  if slice.length < 20 then leftPadBytes slice 20
  else if 20 < slice.length then slice.drop (slice.length - 20)
  else slice

@[simp] theorem length_address (slice : Bytes) : (address slice).length = 20 := by
  unfold address leftPadBytes
  split_ifs
  · omega
  · simp only [List.length_append, List.length_replicate]
    omega
  · simp only [List.length_drop]
    omega
  · omega

theorem address_of_length {slice : Bytes} (length : slice.length = 20) : address slice = slice := by
  rw [address, if_neg (by omega), if_neg (by omega)]

end Thelonious
