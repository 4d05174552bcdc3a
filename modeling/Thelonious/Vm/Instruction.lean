import Thelonious.State.World
import Thelonious.Vm.OpCode

/-!
# Instructions of the virtual machine

The part of the loop of `RunClosure` that only concerns the local variables
`pc`, `stack` and `mem`.  `none` stands for a panic, which `RunClosure` recovers
from, and for the returns with an error: both give the remaining gas back to the
caller and nothing else.
-/

namespace Thelonious

/-- `Environment`, with the hash functions and the native contracts. -/
structure Env where
  sha3Bin : Bytes → Bytes
  ecrecoverFunc : Bytes → Bytes
  sha256Func : Bytes → Bytes
  ripemd160Func : Bytes → Bytes
  origin : Bytes
  blockNumber : Int
  prevHash : Bytes
  coinbase : Bytes
  time : Int
  difficulty : Int
  value : Int
  doug : Bytes
  /-- whether `DougValidate(origin, "create", state)` returns no error -/
  dougValidate : World → Bool

/-- `Closure`.  The caller is known by its object. -/
structure Closure where
  caller : Ref
  object : Ref
  code : Bytes
  args : Bytes
  gas : Int
  price : Int

/-- The local variables of `RunClosure`. -/
structure Locals where
  pc : Int
  stack : List Int
  mem : Bytes

/-- How an instruction ends: behind the switch, by `continue`, or by returning. -/
inductive Outcome
  | next (locals : Locals)
  | jump (locals : Locals)
  | halt (ret : Bytes)

/-- `ensure256` -/
def ensure256 (x : Int) : Int := x % 2 ^ 256

/-- `calcMemSize` -/
def calcMemSize (off l : Int) : Int := if l = 0 then 0 else off + l

/-- `BigTrue` and `BigFalse` -/
def truth (holds : Bool) : Int := if holds then 1 else 0

namespace Locals

def push (l : Locals) (value : Int) : Option Outcome :=
  some (.next { l with stack := value :: l.stack })

def unary (l : Locals) (f : Int → Int) : Option Outcome := do
  let (x, rest) ← Stack.pop l.stack
  return .next { l with stack := f x :: rest }

/-- An instruction on `x, y := stack.Popn()`, as a function of `y` and `x`. -/
def binary (l : Locals) (f : Int → Int → Option Int) : Option Outcome := do
  let (x, y, rest) ← Stack.popn l.stack
  let result ← f y x
  return .next { l with stack := result :: rest }

/-- An instruction on three values popped one after the other. -/
def ternary (l : Locals) (f : Int → Int → Int → Option Int) : Option Outcome := do
  let (x, rest) ← Stack.pop l.stack
  let (y, rest) ← Stack.pop rest
  let (z, rest) ← Stack.pop rest
  let result ← f x y z
  return .next { l with stack := result :: rest }

/-- `big.Int.Div`, with the check of `DIV` and `SDIV` for zero. -/
def quotient (y x : Int) : Option Int := some (ensure256 (if x ≠ 0 then y / x else 0))

/-- `big.Int.Mod`, which panics for zero. -/
def remainder (y x : Int) : Option Int := if x = 0 then none else some (ensure256 (y % x))

/-- `big.Int.Exp` modulo `2^256`, which is one for an exponent that is not positive. -/
def power (y x : Int) : Option Int :=
  some (ensure256 (if x ≤ 0 then 1 else y ^ x.toNat % 2 ^ 256))

/-- `BYTE` -/
def byteAt (th val : Int) : Option Int :=
  if th < 32 ∧ th < (bigBytes val).length then
    if 0 ≤ th then ((leftPadBytes (bigBytes val) 32)[th.toNat]?).map fun byte => byte.toNat
    else none
  else some 0

/-- `CALLDATALOAD` -/
def callDataLoad (args : Bytes) (l : Locals) : Option Outcome := do
  let (offset, rest) ← Stack.pop l.stack
  if offset ≤ args.length then
    if 0 ≤ offset then
      let length := min (offset + 32) args.length
      let data := (args.take length.toNat).drop offset.toNat
      let padded := data ++ List.replicate (32 - data.length) 0
      return .next { l with stack := bigD padded :: rest }
    else none
  else return .next { l with stack := 0 :: rest }

/-- `CALLDATACOPY` and `CODECOPY`: a part of `source` is copied to the memory. -/
def copyFrom (source : Bytes) (l : Locals) : Option Outcome := do
  let (mOff, rest) ← Stack.pop l.stack
  let (cOff, rest) ← Stack.pop rest
  let (len, rest) ← Stack.pop rest
  let size : Int := source.length
  let (cOff, len) :=
    if size < int64 cOff then (0, 0)
    else if size < int64 (int64 cOff + int64 len) then (int64 cOff, 0)
    else (int64 cOff, int64 len)
  let stop := int64 (cOff + len)
  if 0 ≤ cOff ∧ cOff ≤ stop then
    let copied := (source.take stop.toNat).drop cOff.toNat
    let mem ← Memory.set l.mem (int64 mOff) len copied
    return .next { l with stack := rest, mem := mem }
  else none

/-- `toValue`, which `DUP` prints in front of two `POP`s, reads the first byte. -/
def printable (code : Bytes) (pc v : Int) : Option Unit := do
  let following ← opAt code (pc + 1)
  if following = .pop then
    let after ← opAt code (pc + 2)
    if after = .pop ∧ bigBytes v = [] then none else return ()
  else return ()

/-- The loop of `RLPDECODE`, over the values from the `i`th on. -/
def writeItems (start chunkStart : Int) : List Value → Nat → Bytes → Option Bytes
  | [], _, mem => some mem
  | item :: items, i, mem =>
      -- a nested list that is not empty is an error
      if item.isList ∧ item.len ≠ 0 then none
      else do
        let pointer := int64 (chunkStart + 32 * i)
        let mem ← Memory.set mem (int64 (start + 32 * (2 * i + 1))) 32
          (leftPadBytes (bigBytes pointer) 32)
        let length := bigBytes item.asBytes.length ++ [0]
        let length := if length.length = 1 then length ++ [0] else length
        let mem ← Memory.set mem (int64 (start + 32 * (2 * i + 2))) 32 (leftPadBytes length 32)
        let mem ← Memory.set mem pointer 32 (leftPadBytes item.asBytes 32)
        writeItems start chunkStart items (i + 1) mem

/-- The list that `RLPDECODE` decodes; anything else is an error. -/
def rlpItems (l : Locals) : Option (List Value) := do
  let (size, offset, _) ← Stack.popn l.stack
  let rawrlp ← Memory.get l.mem (int64 offset) (int64 size)
  let (decoded, _) ← decode rawrlp 0
  match decoded with
  | .list items => return items
  | _ => none

/-- `RLPDECODE` -/
def rlpDecode (l : Locals) : Option Outcome := do
  let items ← l.rlpItems
  let (_, _, rest) ← Stack.popn l.stack
  let (pos, rest) ← Stack.pop rest
  let start := int64 pos
  let chunkStart := int64 (start + 32 * (2 * items.length + 1))
  let mem ← Memory.set l.mem start 32 (leftPadBytes [UInt8.ofNat items.length] 32)
  let mem ← writeItems start chunkStart items 0 mem
  return .next { l with stack := items.length :: rest, mem := mem }

/-- The loop of `RLPENCODE`, with `left` values to go from the `i`th on. -/
def readItems (mem : Bytes) (start : Int) : Nat → Nat → Option (List Value)
  | 0, _ => some []
  | left + 1, i => do
      let pointer ← Memory.get mem (int64 (start + 64 * i)) 32
      let lentype ← Memory.get mem (int64 (start + 32 * (2 * i + 1))) 32
      if lentype.length = 0 then none
      else do
        let length := int64 (bigD lentype.dropLast)
        let b ← Memory.get mem (int64 (bigD pointer)) 32
        let from_ := int64 (b.length - length)
        let item ←
          if b.length = 0 then some b
          else if 0 ≤ from_ ∧ from_ ≤ b.length then some (b.drop from_.toNat) else none
        let items ← readItems mem start left (i + 1)
        return .bytes item :: items

/-- `RLPENCODE` -/
def rlpEncode (l : Locals) : Option Outcome := do
  let (count, offset, rest) ← Stack.popn l.stack
  let (pos, rest) ← Stack.pop rest
  let items ← readItems l.mem (int64 offset) (int64 count).toNat 0
  let rlpdata := encode (.list items)
  let mem ← Memory.set l.mem (int64 pos) rlpdata.length rlpdata
  return .next { l with stack := rlpdata.length :: rest, mem := mem }

/-- The cases of the second switch that touch nothing but the local variables.  `self`
and `caller` are the addresses of the closure and of its caller. -/
def exec (env : Env) (closure : Closure) (self caller : Bytes) (callStack : List Bytes)
    (l : Locals) : OpCode → Option Outcome
  | .logstack | .logmem => some (.next l)
  | .add => l.binary fun y x => some (ensure256 (y + x))
  | .sub => l.binary fun y x => some (ensure256 (y - x))
  | .mul => l.binary fun y x => some (ensure256 (y * x))
  | .div | .sdiv => l.binary quotient
  | .mod | .smod => l.binary remainder
  | .exp => l.binary power
  -- the result is not reduced
  | .neg => l.unary fun x => 2 ^ 256 - x
  | .lt | .slt => l.binary fun y x => some (truth (y < x))
  | .gt | .sgt => l.binary fun y x => some (truth (x < y))
  | .eq => l.binary fun y x => some (truth (x = y))
  | .not => l.unary fun x => truth (x ≤ 0)
  | .and => l.binary fun y x => some (Int.land y x)
  | .or => l.binary fun y x => some (Int.lor y x)
  | .xor => l.binary fun y x => some (Int.xor y x)
  | .byte => l.binary byteAt
  | .addmod => l.ternary fun x y z => remainder (x + y) z
  | .mulmod => l.ternary fun x y z => remainder (x * y) z
  | .sha3 => do
      let (size, offset, rest) ← Stack.popn l.stack
      let data ← Memory.get l.mem (int64 offset) (int64 size)
      return .next { l with stack := bigD (env.sha3Bin data) :: rest }
  | .rlpdecode => l.rlpDecode
  | .rlpencode => l.rlpEncode
  | .address => l.push (bigD self)
  | .origin => l.push (bigD env.origin)
  | .caller => l.push (bigD caller)
  | .callvalue => l.push env.value
  | .calldataload => l.callDataLoad closure.args
  | .calldatasize => l.push closure.args.length
  | .calldatacopy => l.copyFrom closure.args
  -- `EXTCODESIZE` takes no address, it is the size of the running code
  | .codesize | .extcodesize => l.push closure.code.length
  | .codecopy => l.copyFrom closure.code
  | .gasprice => l.push closure.price
  | .callstack => do
      let (frame, rest) ← Stack.pop l.stack
      if (callStack.length : Int) - 1 < int64 (uint64 frame) then
        return .next { l with stack := 0 :: rest }
      else do
        let addr ← callStack[uint64 frame]?
        return .next { l with stack := bigD addr :: rest }
  | .callstacksize => l.push (callStack.length - 1 : Nat)
  | .prevhash => l.push (bigD env.prevHash)
  | .coinbase => l.push (bigD env.coinbase)
  | .timestamp => l.push env.time
  | .number => l.push env.blockNumber
  | .difficulty => l.push env.difficulty
  | .gaslimit => l.push 0
  | .gendoug => l.push (bigD env.doug)
  | .push width => do
      let data ← gets closure.code (l.pc + 1) width
      return .next { l with pc := l.pc + width, stack := bigD data.asBytes :: l.stack }
  | .pop => do
      let (_, rest) ← Stack.pop l.stack
      return .next { l with stack := rest }
  | .dup depth => do
      let v ← l.stack[depth - 1]?
      printable closure.code l.pc v
      return .next { l with stack := v :: l.stack }
  | .swap depth => do
      let stack ← Stack.swapn l.stack depth
      return .next { l with stack := stack }
  | .mload => do
      let (offset, rest) ← Stack.pop l.stack
      let data ← Memory.get l.mem (int64 offset) 32
      return .next { l with stack := bigD data :: rest }
  | .mstore => do
      let (val, mStart, rest) ← Stack.popn l.stack
      let mem ← Memory.set l.mem (int64 mStart) 32 (bigToBytes val)
      return .next { l with stack := rest, mem := mem }
  | .mstore8 => do
      let (off, rest) ← Stack.pop l.stack
      let (val, rest) ← Stack.pop rest
      if 0 ≤ int64 off ∧ int64 off < l.mem.length then
        return .next { l with stack := rest,
                              mem := l.mem.set (int64 off).toNat (UInt8.ofInt (int64 val)) }
      else none
  | .jump => do
      let (pos, rest) ← Stack.pop l.stack
      return .jump { l with pc := pos, stack := rest }
  | .jumpi => do
      let (cond, pos, rest) ← Stack.popn l.stack
      if 1 ≤ cond then return .jump { l with pc := pos, stack := rest }
      else return .next { l with stack := rest }
  | .pc => l.push l.pc
  | .msize => l.push l.mem.length
  | .gas => l.push closure.gas
  | .return => do
      let (size, offset, _) ← Stack.popn l.stack
      let ret ← Memory.get l.mem (int64 offset) (int64 size)
      return .halt ret
  | .stop => some (.halt [])
  -- the other instructions reach the state, see `Machine`
  | .invalid | .balance | .nonce | .extcodecopy | .sload | .sstore | .create | .call
  | .callstateless | .post | .suicide => none

/-- The gas of a step and `newMemSize`, except for `SSTORE` and `CREATE`, which look at
the state.  A panic here, also one of `require`, comes before the gas is paid. -/
def cost (l : Locals) : OpCode → Option (Int × Int)
  | .stop | .suicide => some (0, 0)
  | .sload | .balance | .nonce => some (20, 0)
  | .mstore => do
      let (_, top, _) ← Stack.popn l.stack
      return (1, calcMemSize top 32)
  | .mload => do
      let (top, _) ← Stack.pop l.stack
      return (1, calcMemSize top 32)
  | .mstore8 => do
      let (_, top, _) ← Stack.popn l.stack
      return (1, calcMemSize top 1)
  | .return => do
      let (size, offset, _) ← Stack.popn l.stack
      return (1, calcMemSize offset size)
  | .sha3 => do
      let (size, offset, _) ← Stack.popn l.stack
      return (20, calcMemSize offset size)
  | .calldatacopy | .codecopy => do
      let top ← l.stack[0]?
      let third ← l.stack[2]?
      return (1, calcMemSize top third)
  | .extcodecopy => do
      let second ← l.stack[1]?
      let fourth ← l.stack[3]?
      return (1, calcMemSize second fourth)
  | .call | .callstateless => do
      let gas ← l.stack[0]?
      let inOffset ← l.stack[3]?
      let inSize ← l.stack[4]?
      let retOffset ← l.stack[5]?
      let retSize ← l.stack[6]?
      return (20 + max 0 gas, max (calcMemSize retOffset retSize) (calcMemSize inOffset inSize))
  | .create => do
      let offset ← l.stack[1]?
      let size ← l.stack[2]?
      return (100, calcMemSize offset size)
  | .rlpdecode => do
      let items ← l.rlpItems
      let pos ← l.stack[2]?
      return (1, calcMemSize pos (32 * items.length))
  | .rlpencode => do
      let _ ← l.stack[2]?
      return (1, 0)
  | _ => some (1, 0)

/-- The memory is extended by whole words, which cost gas: the gas, and the new size. -/
def memoryCost (l : Locals) (newMemSize : Int) : Int × Int :=
  if 0 < newMemSize then
    let rounded := (newMemSize + 31) / 32 * 32
    (if (l.mem.length : Int) < rounded then (rounded - l.mem.length) / 32 else 0, rounded)
  else (0, newMemSize)

end Locals

end Thelonious
