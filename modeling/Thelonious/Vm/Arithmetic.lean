import Thelonious.Lib.SignedWord
import Thelonious.Vm.Gas

/-!
# Arithmetic on words

What the arithmetic instructions are to compute on 256-bit words, and for which
operands `RunClosure` computes it: the signed instructions work on the unsigned
numbers, a remainder by zero panics, and `BYTE` compares its index with the length
of a number without leading zeros.
-/

namespace Thelonious

namespace OpCode

/-- Byte `i` of the 32 bytes of `v`, the most significant one first. -/
def byteOf (i v : Int) : Int := if i < 32 then v / 256 ^ (31 - i).toNat % 256 else 0

/-- The result of an instruction on words, the operand on top of the stack first. -/
def meaning : OpCode → List Int → Option Int
  | .add, [y, x] => some ((y + x) % 2 ^ 256)
  | .sub, [y, x] => some ((y - x) % 2 ^ 256)
  | .mul, [y, x] => some (y * x % 2 ^ 256)
  | .div, [y, x] => some (if x = 0 then 0 else y / x % 2 ^ 256)
  | .sdiv, [y, x] => some (if x = 0 then 0 else
      (SignedWord.toSigned (2 ^ 255) y).tdiv (SignedWord.toSigned (2 ^ 255) x) % 2 ^ 256)
  | .mod, [y, x] => some (if x = 0 then 0 else y % x % 2 ^ 256)
  | .smod, [y, x] => some (if x = 0 then 0 else
      (SignedWord.toSigned (2 ^ 255) y).tmod (SignedWord.toSigned (2 ^ 255) x) % 2 ^ 256)
  | .exp, [y, x] => some (y ^ x.toNat % 2 ^ 256)
  | .addmod, [x, y, z] => some (if z = 0 then 0 else (x + y) % z % 2 ^ 256)
  | .mulmod, [x, y, z] => some (if z = 0 then 0 else x * y % z % 2 ^ 256)
  | .lt, [y, x] => some (truth (y < x))
  | .gt, [y, x] => some (truth (x < y))
  | .slt, [y, x] =>
      some (truth (SignedWord.toSigned (2 ^ 255) y < SignedWord.toSigned (2 ^ 255) x))
  | .sgt, [y, x] =>
      some (truth (SignedWord.toSigned (2 ^ 255) x < SignedWord.toSigned (2 ^ 255) y))
  | .byte, [i, v] => some (byteOf i v)
  | _, _ => none

/-- The operands on which an instruction has the result it is to have. -/
def Exact : OpCode → List Int → Prop
  | .sdiv, [y, x] => SignedWord.DivAgrees (2 ^ 255) y x
  | .mod, [_, x] => x ≠ 0
  | .smod, [y, x] => x ≠ 0 ∧ SignedWord.ModAgrees (2 ^ 255) y x
  | .addmod, [_, _, z] | .mulmod, [_, _, z] => z ≠ 0
  | .slt, [y, x] | .sgt, [y, x] => y < 2 ^ 255 ↔ x < 2 ^ 255
  | .byte, [i, v] => 32 ≤ i ∨ i < (bigBytes v).length ∨ v / 256 ^ (31 - i).toNat % 256 = 0
  | _, _ => True

end OpCode

/-! ### The functions of the instructions -/

namespace Locals

variable {y x z : Int}

theorem binary_eq {l : Locals} {rest : List Int} (f : Int → Int → Option Int)
    (stack : l.stack = y :: x :: rest) :
    l.binary f = (f y x).map fun result => .next { l with stack := result :: rest } := by
  rw [binary, stack]
  change (f y x).bind _ = _
  cases f y x with
  | none => rfl
  | some result => rfl

theorem ternary_eq {l : Locals} {rest : List Int} (f : Int → Int → Int → Option Int)
    (stack : l.stack = x :: y :: z :: rest) :
    l.ternary f = (f x y z).map fun result => .next { l with stack := result :: rest } := by
  rw [ternary, stack]
  change (f x y z).bind _ = _
  cases f x y z with
  | none => rfl
  | some result => rfl

theorem ensure256_of_word (nonneg : 0 ≤ y) (small : y < 2 ^ 256) : ensure256 y = y :=
  Int.emod_eq_of_lt nonneg small

theorem quotient_eq (y x : Int) :
    quotient y x = some (if x = 0 then 0 else y / x % 2 ^ 256) := by
  unfold quotient ensure256
  by_cases zero : x = 0
  · rw [if_neg (not_not.mpr zero), if_pos zero]
    rfl
  · rw [if_pos zero, if_neg zero]

theorem remainder_eq_iff (y x : Int) :
    remainder y x = some (if x = 0 then 0 else y % x % 2 ^ 256) ↔ x ≠ 0 := by
  unfold remainder ensure256
  by_cases zero : x = 0
  · simp [zero]
  · simp [zero]

theorem power_eq (nonneg : 0 ≤ x) : power y x = some (y ^ x.toNat % 2 ^ 256) := by
  unfold power ensure256
  split
  · obtain rfl : x = 0 := by omega
    rw [Int.toNat_zero, pow_zero]
  · rw [Int.emod_emod_of_dvd _ dvd_rfl]

theorem truth_eq_iff {left right : Prop} [Decidable left] [Decidable right] :
    truth left = truth right ↔ (left ↔ right) := by
  unfold truth
  by_cases holds : left <;> by_cases meant : right <;> simp [holds, meant]

variable (y_nonneg : 0 ≤ y) (y_lt : y < 2 ^ 256) (x_nonneg : 0 ≤ x) (x_lt : x < 2 ^ 256)

include y_nonneg y_lt x_nonneg x_lt in
theorem signed_quotient_iff :
    quotient y x = some (if x = 0 then 0 else
      (SignedWord.toSigned (2 ^ 255) y).tdiv (SignedWord.toSigned (2 ^ 255) x) % 2 ^ 256) ↔
      SignedWord.DivAgrees (2 ^ 255) y x := by
  have agrees := SignedWord.div_iff y_nonneg (show y < 2 * 2 ^ 255 by omega) x_nonneg
    (show x < 2 * 2 ^ 255 by omega)
  have quotient_le := Int.ediv_le_self x y_nonneg
  rw [quotient_eq, Option.some.injEq]
  by_cases zero : x = 0
  · exact iff_of_true (by rw [if_pos zero, if_pos zero]) (.inl zero)
  · rw [if_neg zero, if_neg zero, ← agrees,
      Int.emod_eq_of_lt (Int.ediv_nonneg y_nonneg x_nonneg) (by omega)]
    exact eq_comm

include y_nonneg y_lt x_nonneg x_lt in
theorem signed_remainder_iff :
    remainder y x = some (if x = 0 then 0 else
      (SignedWord.toSigned (2 ^ 255) y).tmod (SignedWord.toSigned (2 ^ 255) x) % 2 ^ 256) ↔
      x ≠ 0 ∧ SignedWord.ModAgrees (2 ^ 255) y x := by
  unfold remainder
  by_cases zero : x = 0
  · simp [zero]
  · have agrees := SignedWord.mod_iff y_nonneg (show y < 2 * 2 ^ 255 by omega)
      (show 0 < x by omega) (show x < 2 * 2 ^ 255 by omega)
    have remainder_lt := Int.emod_lt_of_pos y (show 0 < x by omega)
    rw [if_neg zero, if_neg zero, Option.some.injEq, and_iff_right zero, ← agrees,
      ensure256_of_word (Int.emod_nonneg y zero) (by omega)]
    exact eq_comm

include x_nonneg x_lt in
theorem byteAt_iff (y_nonneg : 0 ≤ y) :
    byteAt y x = some (OpCode.byteOf y x) ↔
      32 ≤ y ∨ y < (bigBytes x).length ∨ x / 256 ^ (31 - y).toNat % 256 = 0 := by
  have short : (bigBytes x).length ≤ 32 := by
    rw [bigBytes, BigEndian.length_digits_le_iff]
    omega
  unfold byteAt OpCode.byteOf
  by_cases inside : y < 32
  · rw [if_pos inside]
    by_cases significant : y < (bigBytes x).length
    · rw [if_pos ⟨inside, significant⟩, if_pos y_nonneg]
      refine iff_of_true ?_ (.inr (.inl significant))
      have padded : (leftPadBytes (bigBytes x) 32).length = 32 := by
        rw [leftPadBytes, if_neg (by omega), List.length_append, List.length_replicate]
        omega
      have value : BigEndian.value (leftPadBytes (bigBytes x) 32) = x.natAbs := by
        rw [leftPadBytes, if_neg (by omega), BigEndian.value_replicate_zero_append,
          value_bigBytes]
      obtain ⟨byte, found⟩ : ∃ byte, (leftPadBytes (bigBytes x) 32)[y.toNat]? = some byte :=
        ⟨_, List.getElem?_eq_getElem (by omega)⟩
      have digit := BigEndian.toNat_of_getElem? found
      rw [padded, value] at digit
      have position : (31 - y).toNat = 32 - 1 - y.toNat := by omega
      rw [found, Option.map_some, digit, position, Option.some.injEq]
      push_cast
      rw [abs_of_nonneg x_nonneg]
    · rw [if_neg fun both => significant both.2, Option.some.injEq]
      constructor
      · intro zero
        exact .inr (.inr zero.symm)
      · rintro (beyond | small | zero)
        · omega
        · exact absurd small significant
        · exact zero.symm
  · rw [if_neg inside, if_neg fun both => inside both.1]
    exact iff_of_true rfl (.inl (not_lt.mp inside))

end Locals

/-! ### The step of the machine -/

namespace Machine

variable {env : Env} {db : Database} {m : Machine} {closure : Closure} {l : Locals} {op : OpCode}

/-- The closure has paid for one instruction, which has left `result` on the stack. -/
def pushes (m : Machine) (closure : Closure) (l : Locals) (result : Int) (rest : List Int) :
    Machine :=
  { m with
    control := .running { closure with gas := closure.gas - 1 }
      { l with pc := l.pc + 1, stack := result :: rest } }

/-- An instruction that only concerns the local variables and costs one unit of gas. -/
structure Plain (env : Env) (db : Database) (op : OpCode) : Prop where
  costs (l : Locals) : l.cost op = some (1, 0)
  priced (w : World) (closure : Closure) (l : Locals) :
    w.cost env db closure l op = (l.cost op).bind fun cost => some (cost.1, cost.2, w)
  performs (m : Machine) (closure : Closure) (l : Locals) :
    m.perform env db closure l op =
      match l.exec env closure (m.world.heap closure.object).address
          (m.world.heap closure.caller).address m.callStack op with
      | none => m.leave closure [] false
      | some outcome => m.settle closure outcome

theorem plain_of_meaning {operands : List Int} {result : Int}
    (means : op.meaning operands = some result) : Plain env db op := by
  unfold OpCode.meaning at means
  split at means
  case h_16 => cases means
  all_goals exact ⟨fun _ => rfl, fun _ _ _ => rfl, fun _ _ _ => rfl⟩

section Step

variable (running : m.control = .running closure l) (found : opAt closure.code l.pc = some op)
  (gas : 1 ≤ closure.gas) (plain : Plain env db op)

include running found gas plain

theorem step_plain :
    m.step env db =
      match l.exec env { closure with gas := closure.gas - 1 }
          (m.world.heap closure.object).address (m.world.heap closure.caller).address
          m.callStack op with
      | none => m.leave { closure with gas := closure.gas - 1 } [] false
      | some outcome => m.settle { closure with gas := closure.gas - 1 } outcome := by
  have free : l.memoryCost 0 = (0, 0) := rfl
  have kept : Memory.resize l.mem (uint64 0) = some l.mem := by
    simp [Memory.resize, uint64]
  rw [step, running]
  simp only [instruct, found, plain.priced, plain.costs, Option.bind_some, free, add_zero]
  rw [if_neg (by omega)]
  simp only [kept]
  rw [plain.performs]

theorem step_binary_iff (f : Int → Int → Option Int) {y x result : Int} {rest : List Int}
    (stack : l.stack = [y, x] ++ rest) (executes : ∀ closure self caller callStack,
      l.exec env closure self caller callStack op = l.binary f) :
    m.step env db = m.pushes closure l result rest ↔ f y x = some result := by
  rw [step_plain running found gas plain, executes,
    Locals.binary_eq f (show l.stack = y :: x :: rest from stack)]
  cases f y x with
  | none => simp [pushes, leave]
  | some other => simp [pushes, settle]

theorem step_ternary_iff (f : Int → Int → Int → Option Int) {x y z result : Int}
    {rest : List Int} (stack : l.stack = [x, y, z] ++ rest)
    (executes : ∀ closure self caller callStack,
      l.exec env closure self caller callStack op = l.ternary f) :
    m.step env db = m.pushes closure l result rest ↔ f x y z = some result := by
  rw [step_plain running found gas plain, executes,
    Locals.ternary_eq f (show l.stack = x :: y :: z :: rest from stack)]
  cases f x y z with
  | none => simp [pushes, leave]
  | some other => simp [pushes, settle]

end Step

/-- An arithmetic instruction with enough operands and gas leaves its 256-bit meaning on
the stack exactly when its operands are among those it is right for. -/
theorem word_arithmetic_iff (env : Env) (db : Database) (m : Machine) (closure : Closure)
    (l : Locals) (op : OpCode) (operands rest : List Int) (result : Int)
    (running : m.control = .running closure l) (found : opAt closure.code l.pc = some op)
    (gas : 1 ≤ closure.gas) (stack : l.stack = operands ++ rest)
    (words : ∀ operand ∈ operands, 0 ≤ operand ∧ operand < 2 ^ 256)
    (means : op.meaning operands = some result) :
    m.step env db = m.pushes closure l result rest ↔ op.Exact operands := by
  have plain : Plain env db op := plain_of_meaning means
  have two := @step_binary_iff env db m closure l op running found gas plain
  have three := @step_ternary_iff env db m closure l op running found gas plain
  unfold OpCode.meaning at means
  split at means
  case h_16 => cases means
  all_goals
    cases means
    simp only [List.forall_mem_cons] at words
  case h_1 y x =>
    rw [two (fun y x => some (ensure256 (y + x))) stack fun _ _ _ _ => rfl]
    exact iff_of_true rfl trivial
  case h_2 y x =>
    rw [two (fun y x => some (ensure256 (y - x))) stack fun _ _ _ _ => rfl]
    exact iff_of_true rfl trivial
  case h_3 y x =>
    rw [two (fun y x => some (ensure256 (y * x))) stack fun _ _ _ _ => rfl]
    exact iff_of_true rfl trivial
  case h_4 y x =>
    rw [two Locals.quotient stack fun _ _ _ _ => rfl]
    exact iff_of_true (Locals.quotient_eq y x) trivial
  case h_5 y x =>
    rw [two Locals.quotient stack fun _ _ _ _ => rfl]
    exact Locals.signed_quotient_iff words.1.1 words.1.2 words.2.1.1 words.2.1.2
  case h_6 y x =>
    rw [two Locals.remainder stack fun _ _ _ _ => rfl]
    exact Locals.remainder_eq_iff y x
  case h_7 y x =>
    rw [two Locals.remainder stack fun _ _ _ _ => rfl]
    exact Locals.signed_remainder_iff words.1.1 words.1.2 words.2.1.1 words.2.1.2
  case h_8 y x =>
    rw [two Locals.power stack fun _ _ _ _ => rfl]
    exact iff_of_true (Locals.power_eq words.2.1.1) trivial
  case h_9 x y z =>
    rw [three (fun x y z => Locals.remainder (x + y) z) stack fun _ _ _ _ => rfl]
    exact Locals.remainder_eq_iff (x + y) z
  case h_10 x y z =>
    rw [three (fun x y z => Locals.remainder (x * y) z) stack fun _ _ _ _ => rfl]
    exact Locals.remainder_eq_iff (x * y) z
  case h_11 y x =>
    rw [two (fun y x => some (truth (y < x))) stack fun _ _ _ _ => rfl]
    exact iff_of_true rfl trivial
  case h_12 y x =>
    rw [two (fun y x => some (truth (x < y))) stack fun _ _ _ _ => rfl]
    exact iff_of_true rfl trivial
  case h_13 y x =>
    rw [two (fun y x => some (truth (y < x))) stack fun _ _ _ _ => rfl, Option.some.injEq,
      Locals.truth_eq_iff]
    exact SignedWord.lt_iff (by omega) (by omega) words.1.1 words.2.1.1
  case h_14 y x =>
    rw [two (fun y x => some (truth (x < y))) stack fun _ _ _ _ => rfl, Option.some.injEq,
      Locals.truth_eq_iff]
    exact (SignedWord.lt_iff (by omega) (by omega) words.2.1.1 words.1.1).trans iff_comm
  case h_15 i v =>
    rw [two Locals.byteAt stack fun _ _ _ _ => rfl]
    exact Locals.byteAt_iff words.2.1.1 words.2.1.2 words.1.1

/-- A contract that works on words, called with 100 units of gas. -/
def wordClosure (code : Bytes) : Closure := ⟨1, 0, code, [], 100, 1⟩

def wordWorld (code : Bytes) : World where
  heap ref := { StateObject.new [2 - UInt8.ofNat ref] with code := if ref = 0 then code else [] }
  next := 2
  state := (callingWorld []).state

/-- The machine that runs the contract. -/
abbrev wordMachine (code : Bytes) : Machine :=
  runClosure (wordWorld code) [] [] (wordClosure code)

/-- `SDIV` of 6 by 2. -/
theorem word_arithmetic_iff_six :
    OpCode.sdiv.Exact [6, 2] ∧
      ((wordMachine [0x60, 2, 0x60, 6, 0x05]).after callingEnv ∅ 2).step callingEnv ∅ =
        ((wordMachine [0x60, 2, 0x60, 6, 0x05]).after callingEnv ∅ 2).pushes
          { wordClosure [0x60, 2, 0x60, 6, 0x05] with gas := 98 } ⟨4, [6, 2], []⟩ 3 [] := by
  have exact : OpCode.sdiv.Exact [6, 2] := .inr (.inr (.inl (by decide)))
  exact ⟨exact, (word_arithmetic_iff callingEnv ∅ _ _ _ .sdiv [6, 2] [] 3 rfl (by decide)
    (by decide) rfl (by decide) (by decide)).mpr exact⟩

/-- The stack of the running closure. -/
def stack? (m : Machine) : Option (List Int) :=
  match m.control with
  | .running _ l => some l.stack
  | _ => none

/-- A remainder by zero leaves the closure, `SDIV` of minus two by two is unsigned, minus
two is not below two, and the last byte of one is zero. -/
theorem word_arithmetic_fails :
    (OpCode.mod.meaning [5, 0] = some 0 ∧
      ((wordMachine [0x60, 0, 0x60, 5, 0x06]).after callingEnv ∅ 2).stack? = some [5, 0] ∧
      ((wordMachine [0x60, 0, 0x60, 5, 0x06]).after callingEnv ∅ 3).stack? = none) ∧
    (OpCode.sdiv.meaning [2 ^ 256 - 2, 2] = some (2 ^ 256 - 1) ∧
      ((wordMachine [0x60, 2, 0x60, 2, 0x60, 0, 0x03, 0x05]).after callingEnv ∅ 4).stack? =
        some [2 ^ 256 - 2, 2] ∧
      ((wordMachine [0x60, 2, 0x60, 2, 0x60, 0, 0x03, 0x05]).after callingEnv ∅ 5).stack? =
        some [2 ^ 255 - 1]) ∧
    (OpCode.slt.meaning [2 ^ 256 - 2, 2] = some 1 ∧
      ((wordMachine [0x60, 2, 0x60, 2, 0x60, 0, 0x03, 0x0c]).after callingEnv ∅ 4).stack? =
        some [2 ^ 256 - 2, 2] ∧
      ((wordMachine [0x60, 2, 0x60, 2, 0x60, 0, 0x03, 0x0c]).after callingEnv ∅ 5).stack? =
        some [0]) ∧
    (OpCode.byte.meaning [31, 1] = some 1 ∧
      ((wordMachine [0x60, 1, 0x60, 31, 0x13]).after callingEnv ∅ 2).stack? = some [31, 1] ∧
      ((wordMachine [0x60, 1, 0x60, 31, 0x13]).after callingEnv ∅ 3).stack? = some [0]) := by
  decide +kernel

end Machine

end Thelonious
