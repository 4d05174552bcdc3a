import Thelonious.Vm.StackOps

/-!
# Copying code and data to the memory

`CALLDATACOPY`, `CODECOPY` and `EXTCODECOPY` copy a range that is inside their source.
A range that goes past its end is not cut off but dropped, and nothing is written.
`EXTCODESIZE` never reads the address it is given.
-/

namespace Thelonious

/-- `after` is `mem` with `len` bytes of the source from `cOff` on at `mOff`. -/
def Copies (source : Bytes) (mOff cOff len : Nat) (mem after : Bytes) : Prop :=
  ∀ pos, byteOrZero after pos =
    if mOff ≤ pos ∧ pos < mOff + len then byteOrZero source (cOff + (pos - mOff))
    else byteOrZero mem pos

/-- The range is inside the source, or the memory has its bytes already. -/
def Copyable (source : Bytes) (mOff cOff len : Nat) (mem : Bytes) : Prop :=
  cOff + len ≤ source.length ∨
    ∀ i < len, byteOrZero mem (mOff + i) = byteOrZero source (cOff + i)

theorem copies_iff_copyable {source mem after : Bytes} {mOff cOff len : Nat}
    (written : ∀ pos, byteOrZero after pos =
      if cOff + len ≤ source.length ∧ mOff ≤ pos ∧ pos < mOff + len then
        byteOrZero source (cOff + (pos - mOff))
      else byteOrZero mem pos) :
    Copies source mOff cOff len mem after ↔ Copyable source mOff cOff len mem := by
  constructor
  · intro copies
    by_cases inside : cOff + len ≤ source.length
    · exact .inl inside
    · right
      intro i below
      have copied := copies (mOff + i)
      rw [written, if_neg (fun all => inside all.1), if_pos (by omega), Nat.add_sub_cancel_left]
        at copied
      exact copied
  · intro copyable pos
    rw [written]
    by_cases range : mOff ≤ pos ∧ pos < mOff + len
    · rw [if_pos range]
      by_cases inside : cOff + len ≤ source.length
      · rw [if_pos ⟨inside, range⟩]
      · rw [if_neg fun all => inside all.1]
        rcases copyable with covered | same
        · exact absurd covered inside
        · have sameByte := same (pos - mOff) (by omega)
          rw [Nat.add_sub_cancel' range.1] at sameByte
          exact sameByte
    · rw [if_neg range, if_neg fun all => range all.2]

namespace Locals

variable {l : Locals} {source : Bytes} {mOff cOff len : Nat} {rest : List Int}

theorem clip_natCast (cOffSmall : cOff < 2 ^ 31) (lenSmall : len < 2 ^ 31) (size : Nat) :
    clip size cOff len =
      if size < cOff then (0, 0) else if size < cOff + len then ((cOff : Int), 0)
      else ((cOff : Int), (len : Int)) := by
  have cOffEq : int64 (cOff : Int) = cOff := int64_natCast (by omega)
  have lenEq : int64 (len : Int) = len := int64_natCast (by omega)
  have stopEq : int64 ((cOff : Int) + len) = (cOff + len : Nat) :=
    int64_natCast (show cOff + len < 2 ^ 63 by omega)
  unfold clip
  rw [cOffEq, lenEq, stopEq]
  simp only [Nat.cast_lt]

theorem copyFrom_eq {mOff cOff len : Int} (stack : l.stack = mOff :: cOff :: len :: rest) :
    l.copyFrom source =
      if 0 ≤ (clip source.length cOff len).1 ∧ (clip source.length cOff len).1 ≤
          int64 ((clip source.length cOff len).1 + (clip source.length cOff len).2) then
        (Memory.set l.mem (int64 mOff) (clip source.length cOff len).2
          ((source.take (int64 ((clip source.length cOff len).1 +
            (clip source.length cOff len).2)).toNat).drop
              (clip source.length cOff len).1.toNat)).bind
          fun mem => some (.next { l with stack := rest, mem := mem })
      else none := by
  unfold copyFrom
  rw [stack]
  rfl

/-- What is left of a range that is not inside the source is empty. -/
theorem exists_copyFrom (mOffSmall : mOff < 2 ^ 31) (cOffSmall : cOff < 2 ^ 31)
    (lenSmall : len < 2 ^ 31) (stack : l.stack = (mOff : Int) :: cOff :: len :: rest) :
    ∃ mem, l.copyFrom source = some (.next { l with stack := rest, mem := mem }) ∧
      ∀ pos, byteOrZero mem pos =
        if cOff + len ≤ source.length ∧ mOff ≤ pos ∧ pos < mOff + len then
          byteOrZero source (cOff + (pos - mOff))
        else byteOrZero l.mem pos := by
  have mOffEq : int64 (mOff : Int) = mOff := int64_natCast (by omega)
  have empties : ∀ start : Nat, start < 2 ^ 31 → ¬ cOff + len ≤ source.length →
      clip source.length cOff len = ((start : Int), 0) →
      ∃ mem, l.copyFrom source = some (.next { l with stack := rest, mem := mem }) ∧
        ∀ pos, byteOrZero mem pos =
          if cOff + len ≤ source.length ∧ mOff ≤ pos ∧ pos < mOff + len then
            byteOrZero source (cOff + (pos - mOff))
          else byteOrZero l.mem pos := by
    intro start startSmall outside clipped
    have stopEq : int64 ((start : Int) + 0) = start := by
      rw [add_zero]
      exact int64_natCast (by omega)
    obtain ⟨mem, set, -, bytes⟩ := Memory.exists_set (show mOff + 0 ≤ 2 ^ 48 by omega) l.mem
      ((source.take start).drop start)
    refine ⟨mem, ?_, ?_⟩
    · rw [copyFrom_eq stack, clipped, stopEq, if_pos (by omega), Int.toNat_natCast, mOffEq]
      rw [show (0 : Int) = (0 : Nat) from rfl, set]
      rfl
    · intro pos
      rw [bytes, if_neg (by omega), if_neg fun all => outside all.1]
  have clipped := clip_natCast cOffSmall lenSmall source.length
  split at clipped
  · exact empties 0 (by omega) (by omega) clipped
  · split at clipped
    · exact empties cOff cOffSmall (by omega) clipped
    · have inside : cOff + len ≤ source.length := by omega
      have stopEq : int64 ((cOff : Int) + len) = (cOff + len : Nat) :=
        int64_natCast (show cOff + len < 2 ^ 63 by omega)
      have length : ((source.take (cOff + len)).drop cOff).length = len := by
        rw [List.length_drop, List.length_take]
        omega
      obtain ⟨mem, set, -, bytes⟩ := Memory.exists_set (show mOff + len ≤ 2 ^ 48 by omega) l.mem
        ((source.take (cOff + len)).drop cOff)
      refine ⟨mem, ?_, ?_⟩
      · rw [copyFrom_eq stack, clipped, stopEq, if_pos (by omega), Int.toNat_natCast,
          Int.toNat_natCast, mOffEq, set]
        rfl
      · intro pos
        rw [bytes, length, min_self]
        by_cases range : mOff ≤ pos ∧ pos < mOff + len
        · rw [if_pos range, if_pos ⟨inside, range⟩, byteOrZero_take_drop _ (by omega)]
        · rw [if_neg range, if_neg fun all => range all.2]

end Locals

namespace Machine

variable {env : Env} {db : Database} {m : Machine} {closure : Closure} {l : Locals}

/-- What the instruction copies from, the operands it copies with, and the state it leaves. -/
inductive Sources (db : Database) (w : World) (closure : Closure) :
    OpCode → List Int → Bytes → List Int → World → Prop
  | callData (stack : List Int) : Sources db w closure .calldatacopy stack closure.args stack w
  | code (stack : List Int) : Sources db w closure .codecopy stack closure.code stack w
  | extCode (addr : Int) (stack : List Int) (code : Bytes) (after : World)
      (found : w.getCode db (bigBytes addr) = some (code, after)) :
      Sources db w closure .extcodecopy (addr :: stack) code stack after

/-- The gas of a copy. -/
def copyGas (l : Locals) (mOff len : Int) : Int := 1 + (l.memoryCost (calcMemSize mOff len)).1

theorem calcMemSize_natCast (off len : Nat) :
    calcMemSize off len = if len = 0 then 0 else ((off + len : Nat) : Int) := by
  unfold calcMemSize
  simp

/-- Memory up to `2 ^ 47` bytes can be extended. -/
theorem exists_resize (l : Locals) {newMemSize : Int} (nonneg : 0 ≤ newMemSize)
    (small : newMemSize ≤ 2 ^ 47) :
    ∃ mem, Memory.resize l.mem (uint64 (l.memoryCost newMemSize).2) = some mem ∧
      ∀ pos, byteOrZero mem pos = byteOrZero l.mem pos := by
  have size : uint64 (l.memoryCost newMemSize).2 ≤ 2 ^ 48 := by
    unfold Locals.memoryCost uint64
    split
    · dsimp only
      omega
    · dsimp only
      omega
  exact ⟨_, Memory.resize_eq (by omega), fun pos => byteOrZero_append_zeros _ _ pos⟩

theorem Sources.paid {op : OpCode} {source : Bytes} {stack operands rest : List Int} {w : World}
    {mOff cOff len : Nat} (sources : Sources db m.world closure op stack source operands w)
    (env : Env)
    (running : m.control = .running closure l) (found : opAt closure.code l.pc = some op)
    (stackEq : l.stack = stack) (operandsEq : operands = (mOff : Int) :: cOff :: len :: rest)
    (mOffSmall : mOff < 2 ^ 31) (lenSmall : len < 2 ^ 31)
    (gas : copyGas l mOff len ≤ closure.gas) :
    ∃ paid : Paid env db m, paid.caller = closure ∧ paid.l = l ∧ paid.op = op ∧
      paid.world = m.world ∧ paid.gas = copyGas l mOff len ∧
      ∀ pos, byteOrZero paid.mem pos = byteOrZero l.mem pos := by
  have costs : m.world.cost env db closure l op = some (1, calcMemSize mOff len, m.world) := by
    subst operandsEq
    cases sources with
    | callData stack | code stack | extCode addr stack code after found =>
        simp [World.cost, Locals.cost, stackEq]
  have bounds : 0 ≤ calcMemSize mOff len ∧ calcMemSize mOff len ≤ 2 ^ 47 := by
    rw [calcMemSize_natCast]
    split
    · omega
    · omega
  obtain ⟨mem, resized, same⟩ := exists_resize l bounds.1 bounds.2
  exact ⟨⟨closure, l, op, 1, calcMemSize mOff len, m.world, mem, running, found, costs, gas,
    resized⟩,
    rfl, rfl, rfl, rfl, rfl, same⟩

/-- The instruction is the copy, once it is paid for. -/
theorem Sources.perform_eq {op : OpCode} {source : Bytes} {stack operands : List Int} {w : World}
    (sources : Sources db m.world closure op stack source operands w) {outcome : Outcome}
    (gas : Int)
    (stackEq : l.stack = stack)
    (copied : ({ l with stack := operands } : Locals).copyFrom source = some outcome) :
    m.perform env db { closure with gas := gas } l op =
      settle { m with world := w } { closure with gas := gas } outcome := by
  cases sources with
  | callData stack =>
      obtain rfl := stackEq
      have executed : l.copyFrom closure.args = some outcome := copied
      simp only [perform, Locals.exec, executed]
  | code stack =>
      obtain rfl := stackEq
      have executed : l.copyFrom closure.code = some outcome := copied
      simp only [perform, Locals.exec, executed]
  | extCode addr stack code after found =>
      simp only [perform, World.access, stackEq, Stack.pop, found, copied, Option.bind_eq_bind,
        Option.bind_some]
      rfl

theorem step_unpaid {op : OpCode} (running : m.control = .running closure l)
    (found : opAt closure.code l.pc = some op) (short : closure.gas < 1) (plain : Plain env db op) :
    m.step env db = m.leave { closure with gas := 0 } [] false := by
  have free : l.memoryCost 0 = (0, 0) := rfl
  rw [step, running]
  simp only [instruct, found, plain.priced, plain.costs, Option.bind_some, free, add_zero]
  rw [if_pos short]

/-- A copy has its effect exactly when the range is inside the source, or its bytes are in the
memory already; and `EXTCODESIZE` never replaces the address by the size of its code. -/
theorem copies_iff (env : Env) (db : Database) (m : Machine) (closure : Closure) (l : Locals)
    (running : m.control = .running closure l) :
    (∀ (op : OpCode) (source : Bytes) (operands rest : List Int) (w : World) (mOff cOff len : Nat),
      opAt closure.code l.pc = some op →
      Sources db m.world closure op l.stack source operands w →
      operands = (mOff : Int) :: cOff :: len :: rest → mOff < 2 ^ 31 → cOff < 2 ^ 31 →
      len < 2 ^ 31 → copyGas l mOff len ≤ closure.gas →
      ∃ mem, m.step env db =
          { m with
            world := w
            control := .running { closure with gas := closure.gas - copyGas l mOff len }
              ⟨l.pc + 1, rest, mem⟩ } ∧
        (Copies source mOff cOff len l.mem mem ↔ Copyable source mOff cOff len l.mem)) ∧
    ∀ (addr : Int) (rest : List Int) (code : Bytes) (w : World),
      opAt closure.code l.pc = some .extcodesize → l.stack = addr :: rest →
      m.world.getCode db (bigBytes addr) = some (code, w) →
      ∀ closure' l', (m.step env db).control = .running closure' l' →
        l'.stack ≠ (code.length : Int) :: rest := by
  constructor
  case left =>
    intro op source operands rest w mOff cOff len found sources operandsEq mOffSmall cOffSmall
      lenSmall gas
    obtain ⟨paid, callerEq, localsEq, opEq, worldEq, gasEq, same⟩ :=
      sources.paid env running found rfl operandsEq mOffSmall lenSmall gas
    obtain ⟨mem, copied, written⟩ := @Locals.exists_copyFrom { paid.locals with stack := operands }
      source mOff cOff len rest mOffSmall cOffSmall lenSmall operandsEq
    refine ⟨mem, ?_, ?_⟩
    · have base : ({ m with world := paid.world } : Machine) = m := by rw [worldEq]
      have closureEq : paid.closure = { closure with gas := closure.gas - copyGas l mOff len } := by
        rw [Paid.closure, callerEq, gasEq]
      have stackEq : paid.locals.stack = l.stack := by rw [← localsEq]; rfl
      have pcEq : paid.locals.pc = l.pc := by rw [← localsEq]; rfl
      rw [step_paid paid, base, opEq, closureEq, sources.perform_eq _ stackEq copied, settle,
        ← pcEq]
    · apply copies_iff_copyable
      intro pos
      rw [written]
      change (if _ then _ else byteOrZero paid.mem pos) = _
      rw [same]
  case right =>
    intro addr rest code w found stack loaded closure' l' runs
    have plain : Plain env db .extcodesize := ⟨fun _ => rfl, fun _ _ _ => rfl, fun _ _ _ => rfl⟩
    by_cases gas : 1 ≤ closure.gas
    · rw [step_plain running found gas plain] at runs
      obtain ⟨-, rfl⟩ := Control.running.inj runs
      intro same
      have lengths := congrArg List.length same
      simp [stack] at lengths
    · rw [step_unpaid running found (not_le.mp gas) plain] at runs
      cases runs

/-- `CODECOPY` of two bytes of its own code. -/
theorem copies_iff_two :
    ∃ mem,
      ((wordMachine [0x60, 2, 0x60, 1, 0x60, 3, 0x39]).after callingEnv ∅ 3).step callingEnv ∅ =
        { (wordMachine [0x60, 2, 0x60, 1, 0x60, 3, 0x39]).after callingEnv ∅ 3 with
          control := .running { wordClosure [0x60, 2, 0x60, 1, 0x60, 3, 0x39] with gas := 95 }
            ⟨7, [], mem⟩ } ∧
      Copies [0x60, 2, 0x60, 1, 0x60, 3, 0x39] 3 1 2 [] mem := by
  obtain ⟨copies, -⟩ := copies_iff callingEnv ∅
    ((wordMachine [0x60, 2, 0x60, 1, 0x60, 3, 0x39]).after callingEnv ∅ 3)
    { wordClosure [0x60, 2, 0x60, 1, 0x60, 3, 0x39] with gas := 97 } ⟨6, [3, 1, 2], []⟩ rfl
  obtain ⟨mem, stepped, copied⟩ := copies .codecopy [0x60, 2, 0x60, 1, 0x60, 3, 0x39] [3, 1, 2] [] _
    3 1 2 (by decide) (.code _) rfl (by decide) (by decide) (by decide) (by decide)
  exact ⟨mem, stepped, copied.mpr (.inl (by decide))⟩

/-- The memory of the running closure. -/
def mem? (m : Machine) : Option Bytes :=
  match m.control with
  | .running _ l => some l.mem
  | _ => none

/-- Nine bytes from the second one of a code of seven are not copied at all, and `EXTCODESIZE`
leaves the address on the stack. -/
theorem copy_past_the_end :
    byteOrZero [0x60, 9, 0x60, 1, 0x60, 3, 0x39] 1 = 9 ∧
      ((wordMachine [0x60, 9, 0x60, 1, 0x60, 3, 0x39]).after callingEnv ∅ 3).stack? =
        some [3, 1, 9] ∧
      (((wordMachine [0x60, 9, 0x60, 1, 0x60, 3, 0x39]).after callingEnv ∅ 4).mem?.map
        fun mem => byteOrZero mem 3) = some 0 ∧
      ((wordMachine [0x60, 1, 0x3c, 0x50]).after callingEnv ∅ 2).stack? = some [4, 1] := by
  decide +kernel

end Machine

end Thelonious
