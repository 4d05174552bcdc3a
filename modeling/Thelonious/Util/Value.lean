import Thelonious.Lib.BigEndian

/-!
# Dynamically typed values

`monkutil.Value` wraps an `interface{}`; the node builds such values from its
own records and gets them back from the RLP decoder.  The constructors are the
dynamic types that occur there, and the accessors follow the type switches of
`value.go`, including the result they fall back to.
-/

namespace Thelonious

/-- Go's `[]byte`, and `string`, which is a sequence of bytes as well. -/
abbrev Bytes := List UInt8

/-- The dynamic contents of an `interface{}`. -/
inductive Value where
  | nil
  | str (text : Bytes)
  | bytes (data : Bytes)
  | byte (single : UInt8)
  | int (number : Int)
  | uint64 (number : UInt64)
  | bigInt (number : Int)
  | list (items : List Value)
deriving Repr, Inhabited

/-- `big.Int.Bytes`: the absolute value, without leading zeros. -/
def bigBytes (number : Int) : Bytes :=
  BigEndian.digits number.natAbs

theorem value_bigBytes (number : Int) : BigEndian.value (bigBytes number) = number.natAbs :=
  BigEndian.value_digits _

/-- `string(a)` for a byte `a`: the UTF-8 encoding of that code point. -/
def stringOfByte (single : UInt8) : Bytes :=
  if single < 0x80 then [single]
  else [(0xc0 : UInt8) ||| (single >>> 6), (0x80 : UInt8) ||| (single &&& 0x3f)]

namespace Value

def isNil : Value → Bool
  | .nil => true
  | _ => false

/-- `Value.Str` -/
def asStr : Value → Bytes
  | .bytes data => data
  | .str text => text
  | .byte single => stringOfByte single
  | _ => []

/-- `Value.Bytes`; a `uint64` is not among the cases of `Value.Int`. -/
def asBytes : Value → Bytes
  | .bytes data => data
  | .byte single => [single]
  | .str text => text
  | .bigInt number => bigBytes number
  | .int number => bigBytes number
  | _ => []

/-- `Value.Len` -/
def len : Value → Nat
  | .list items => items.length
  | value => value.asBytes.length

/-- `Value.Get(index).Raw()`: nil when out of range or not a list. -/
def get : Value → Nat → Value
  | .list items, index => items.getD index .nil
  | _, _ => .nil

def isList : Value → Bool
  | .list _ => true
  | _ => false

/-- `Value.Uint` -/
def asUint : Value → UInt64
  | .byte single => single.toUInt64
  | .uint64 number => number
  | .int number => UInt64.ofInt number
  | .bytes data => UInt64.ofNat (BigEndian.value data)
  | .bigInt number => UInt64.ofNat number.natAbs
  | _ => 0

/-- `Value.BigInt`.  The text of a Go `string`, which would be parsed, is never asked
for its number. -/
def asBigInt : Value → Int
  | .bytes data => BigEndian.value data
  | .bigInt number => number
  | value => (value.asUint.toNat : Int).bmod (2 ^ 64)

@[simp] theorem isNil_list (items : List Value) : (list items).isNil = false := rfl
@[simp] theorem isNil_str (text : Bytes) : (str text).isNil = false := rfl
@[simp] theorem isNil_bytes (data : Bytes) : (bytes data).isNil = false := rfl
@[simp] theorem len_list (items : List Value) : (list items).len = items.length := rfl
@[simp] theorem len_str (text : Bytes) : (str text).len = text.length := rfl
@[simp] theorem len_bytes (data : Bytes) : (bytes data).len = data.length := rfl

end Value

end Thelonious
