import Thelonious.Util.Value

/-!
# Recursive length prefix encoding

`Encode` and `Decode` of `rlp.go` with `COMPRESS = false`.  Out-of-range
indexing and slicing, which panics in the source, is `none` here.
-/

namespace Thelonious

/-- `LeftPadBytes` -/
def leftPadBytes (data : Bytes) (width : Nat) : Bytes :=
  if width < data.length then data
  else List.replicate (width - data.length) 0 ++ data

/-- `ReadVarInt`: the widths are those of the integers it reads into. -/
def readVarInt (buff : Bytes) : Nat :=
  if 4 < buff.length then BigEndian.value ((leftPadBytes buff 8).take 8)
  else if 2 < buff.length then BigEndian.value ((leftPadBytes buff 4).take 4)
  else if 1 < buff.length then BigEndian.value ((leftPadBytes buff 2).take 2)
  else BigEndian.value (buff.take 1)

/-- `data[low:high]` -/
def slice (data : Bytes) (low high : Nat) : Option Bytes :=
  if low ≤ high ∧ high ≤ data.length then some ((data.drop low).take (high - low))
  else none

/-- The `[]byte` case of `_Encode`. -/
def encodeBytes (data : Bytes) : Bytes :=
  if data.length = 1 ∧ data.headD 0 ≤ 0x7f then data
  else if data.length < 56 then UInt8.ofNat (data.length + 0x80) :: data
  else
    let length := BigEndian.digits data.length
    UInt8.ofNat (length.length + 0xb7) :: (length ++ data)

/-- `WriteSliceHeader` -/
def sliceHeader (length : Nat) : Bytes :=
  if length < 56 then [UInt8.ofNat (length + 0xc0)]
  else
    let digits := BigEndian.digits length
    UInt8.ofNat (digits.length + 0xf7) :: digits

mutual

/-- `Encode` -/
def encode : Value → Bytes
  | .nil => [0xc0]
  | .str text => encodeBytes text
  | .bytes data => encodeBytes data
  | .byte single => encodeBytes (bigBytes single.toNat)
  | .int number => encodeBytes (bigBytes number)
  -- the source converts through `int64`, so the sign bit is lost with `Bytes`
  | .uint64 number => encodeBytes (bigBytes number.toInt64.toInt)
  | .bigInt number => encodeBytes (bigBytes number)
  | .list items => sliceHeader (encodeItems items).length ++ encodeItems items

def encodeItems : List Value → Bytes
  | [] => []
  | item :: items => encode item ++ encodeItems items

end

mutual

/-- `_Decode(data, pos)`; `fuel` bounds the depth of the recursion. -/
def decodeAt : Nat → Bytes → Nat → Option (Value × Nat)
  | 0, _, _ => none
  | fuel + 1, data, pos => do
      let char ← data[pos]?
      if char ≤ 0x7f then
        return (.byte char, pos + 1)
      else if char ≤ 0xb7 then
        let b := char.toNat - 0x80
        let ret ← slice data (pos + 1) (pos + 1 + b)
        return (.bytes ret, pos + 1 + b)
      else if char ≤ 0xbf then
        let b := char.toNat - 0xb7
        let b2 := readVarInt (← slice data (pos + 1) (pos + 1 + b))
        let ret ← slice data (pos + 1 + b) (pos + 1 + b + b2)
        return (.bytes ret, pos + 1 + b + b2)
      else if char ≤ 0xf7 then
        let b := char.toNat - 0xc0
        let (items, pos) ← decodeItems fuel data (pos + 1) 0 b
        return (.list items, pos)
      else
        let l := char.toNat - 0xf7
        let b := readVarInt (← slice data (pos + 1) (pos + 1 + l))
        let (items, pos) ← decodeItems fuel data (pos + l + 1) 0 b
        return (.list items, pos)

/-- The loop `for i < b` of the list cases: elements are read until `b` bytes
have been consumed. -/
def decodeItems : Nat → Bytes → Nat → Nat → Nat → Option (List Value × Nat)
  | 0, _, _, _, _ => none
  | fuel + 1, data, pos, i, b =>
      if i < b then do
        let (item, next) ← decodeAt fuel data pos
        let (items, last) ← decodeItems fuel data next (i + (next - pos)) b
        return (item :: items, last)
      else some ([], pos)

end

/-- `Decode` -/
def decode (data : Bytes) (pos : Nat) : Option (Value × Nat) :=
  decodeAt (2 * data.length + 2) data pos

/-- `NewValueFromBytes(data).Val` -/
def newValueFromBytes (data : Bytes) : Option Value :=
  if data.length ≠ 0 then (decode data 0).map Prod.fst else some .nil

end Thelonious
