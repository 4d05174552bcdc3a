import Thelonious.Util.Big

/-!
# Operation codes, stack and memory

The instruction set of `types.go`, and the `Stack` and `Memory` of `stack.go`.
`none` is a panic, which `RunClosure` recovers from.
-/

namespace Thelonious

/-- The opcodes of `types.go`.  `push n`, `dup n` and `swap n` are the families
`PUSHn`, `DUPn` and `SWAPn`; every other byte is invalid. -/
inductive OpCode
  | stop | add | mul | sub | div | sdiv | mod | smod | exp | neg | lt | gt | slt | sgt | eq | not
  | and | or | xor | byte | addmod | mulmod
  | sha3 | rlpdecode | rlpencode
  | address | balance | origin | caller | callvalue | calldataload | calldatasize | calldatacopy
  | codesize | codecopy | gasprice | extcodecopy | extcodesize | callstack | callstacksize | nonce
  | prevhash | coinbase | timestamp | number | difficulty | gaslimit | gendoug
  | pop | mload | mstore | mstore8 | sload | sstore | jump | jumpi | pc | msize | gas
  | push (width : Nat) | dup (depth : Nat) | swap (depth : Nat)
  | create | call | return | post | callstateless
  | logstack | logmem | suicide
  | invalid
  deriving DecidableEq, Repr

namespace OpCode

/-- The ranges of consecutive codes that are no family. -/
def ranges : List (Nat × List OpCode) :=
  [(0x00, [stop, add, mul, sub, div, sdiv, mod, smod, exp, neg, lt, gt, slt, sgt, eq, not]),
   (0x10, [and, or, xor, byte, addmod, mulmod]),
   (0x20, [sha3, rlpdecode, rlpencode]),
   (0x30, [address, balance, origin, caller, callvalue, calldataload, calldatasize,
     calldatacopy, codesize, codecopy, gasprice, extcodecopy, extcodesize, callstack,
     callstacksize, nonce]),
   (0x40, [prevhash, coinbase, timestamp, number, difficulty, gaslimit, gendoug]),
   (0x50, [pop, invalid, invalid, mload, mstore, mstore8, sload, sstore, jump, jumpi, pc,
     msize, gas]),
   (0xf0, [create, call, .return, post, callstateless]),
   (0xfd, [logstack, logmem, suicide])]

/-- `OpCode(code)` -/
def ofNat (code : Nat) : OpCode :=
  if 0x60 ≤ code ∧ code ≤ 0x7f then push (code - 0x60 + 1)
  else if 0x80 ≤ code ∧ code ≤ 0x8f then dup (code - 0x80 + 1)
  else if 0x90 ≤ code ∧ code ≤ 0x9f then swap (code - 0x90 + 1)
  else (ranges.findSome? fun range =>
    if range.1 ≤ code then range.2[code - range.1]? else none).getD invalid

end OpCode

/-- `Closure.Gets` on the code of a closure.  Reading past the end of the code
panics, the capacity of the slice being its length. -/
def gets (code : Bytes) (x y : Int) : Option Value :=
  if (code.length : Int) ≤ int64 x ∨ (code.length : Int) ≤ int64 y then some (.int 0)
  else if 0 ≤ int64 x ∧ int64 x ≤ int64 (int64 x + int64 y) ∧
      int64 (int64 x + int64 y) ≤ code.length then
    some (.bytes ((code.take (int64 (int64 x + int64 y)).toNat).drop (int64 x).toNat))
  else none

/-- `OpCode(closure.Get(pc).Uint())` -/
def opAt (code : Bytes) (pc : Int) : Option OpCode := do
  let value ← gets code pc 1
  return .ofNat value.asUint.toNat

/-! ### Stack

The top of the stack is the head of the list. -/

namespace Stack

/-- `Pop` -/
def pop : List Int → Option (Int × List Int)
  | top :: rest => some (top, rest)
  | [] => none

/-- `Popn`: the second value first. -/
def popn : List Int → Option (Int × Int × List Int)
  | top :: second :: rest => some (second, top, rest)
  | _ => none

/-- `Swapn(n + 1)` -/
def swapn (stack : List Int) (n : Nat) : Option (List Int) := do
  let top ← stack[0]?
  let other ← stack[n]?
  return (stack.set 0 other).set n top

end Stack

/-! ### Memory -/

namespace Memory

/-- `make([]byte, size)` panics for a size beyond the address space. -/
def zeros (size : Nat) : Option Bytes :=
  if 2 ^ 48 < size then none else some (List.replicate size 0)

/-- `Get` -/
def get (store : Bytes) (offset size : Int) : Option Bytes :=
  if offset < store.length then
    let stop := min (store.length : Int) (int64 (offset + size))
    if 0 ≤ offset ∧ offset ≤ stop then some ((store.take stop.toNat).drop offset.toNat)
    else none
  else some []

/-- `copy` over the bytes from `offset` on. -/
def overwrite (store : Bytes) (offset : Nat) (value : Bytes) : Bytes :=
  store.take offset ++ value ++ store.drop (offset + value.length)

/-- The growth of `Set`, through the length minus one and the difference minus one. -/
def grow (store : Bytes) (totSize : Int) : Option Bytes :=
  let lenSize : Int := store.length - 1
  if totSize > lenSize then
    let diff := int64 (totSize - lenSize)
    if diff > 0 then (zeros (diff - 1).toNat).map (store ++ ·) else some store
  else some store

/-- `Set` -/
def set (store : Bytes) (offset size : Int) (value : Bytes) : Option Bytes := do
  let totSize := int64 (offset + size)
  let store ← grow store totSize
  if 0 ≤ offset ∧ offset ≤ totSize ∧ totSize ≤ store.length then
    return overwrite store offset.toNat (value.take (totSize - offset).toNat)
  else none

/-- `Resize` -/
def resize (store : Bytes) (size : Nat) : Option Bytes :=
  if store.length < size then (zeros (size - store.length)).map (store ++ ·) else some store

end Memory

end Thelonious
