import Thelonious.Vm.Fetch

/-!
# Stack manipulation

`POP` and `SWAP` only depend on the stack.  `DUP` looks at the two instructions behind
it: in front of two `POP`s it prints the value, and `toValue` reads the first byte of a
number that has none when it is zero.
-/

namespace Thelonious

variable {code : Bytes} {pc : Int}

theorem exists_opAt (small : code.length < 2 ^ 63) (nonneg : 0 ≤ int64 pc) :
    ∃ op, opAt code pc = some op := by
  have one : int64 1 = 1 := by decide
  unfold opAt gets
  rw [one]
  by_cases past : (code.length : Int) ≤ int64 pc ∨ (code.length : Int) ≤ 1
  · rw [if_pos past]
    exact ⟨_, rfl⟩
  · have next : int64 (int64 pc + 1) = int64 pc + 1 := by
      obtain ⟨pos, posEq⟩ := Int.eq_ofNat_of_zero_le nonneg
      rw [posEq] at past ⊢
      exact int64_natCast (show pos + 1 < 2 ^ 63 by omega)
    rw [if_neg past, next, if_pos (by omega)]
    exact ⟨_, rfl⟩

theorem int64_succ (small : code.length < 2 ^ 63) (bounds : 0 ≤ int64 pc ∧ int64 pc < code.length) :
    int64 (pc + 1) = int64 pc + 1 := by
  obtain ⟨nonneg, inside⟩ := bounds
  unfold int64 at nonneg inside ⊢
  simp only [Int.bmod_def] at nonneg inside ⊢
  split at nonneg <;> split <;> omega

/-- `DUP` fails to print zero in front of two `POP`s. -/
theorem Locals.printable_eq (small : code.length < 2 ^ 63)
    (bounds : 0 ≤ int64 pc ∧ int64 pc < code.length) (v : Int) :
    printable code pc v =
      if opAt code (pc + 1) = some .pop ∧ opAt code (pc + 2) = some .pop ∧ v = 0 then none
      else some () := by
  have nextNonneg : 0 ≤ int64 (pc + 1) := by
    rw [int64_succ small bounds]
    omega
  have zero : bigBytes v = [] ↔ v = 0 := by
    rw [bigBytes, BigEndian.digits_eq_nil_iff, Int.natAbs_eq_zero]
  obtain ⟨following, followingEq⟩ := exists_opAt small nextNonneg
  unfold printable
  rw [followingEq, Option.bind_eq_bind, Option.bind_some]
  by_cases isPop : following = .pop
  · have nextBounds : 0 ≤ int64 (pc + 1) ∧ int64 (pc + 1) < code.length :=
      bounds_of_opAt followingEq (by rw [isPop]; simp)
    have afterNonneg : 0 ≤ int64 (pc + 2) := by
      rw [show pc + 2 = pc + 1 + 1 by omega, int64_succ small nextBounds]
      omega
    obtain ⟨after, afterEq⟩ := exists_opAt small afterNonneg
    simp only [isPop, afterEq, if_true, Option.bind_some, zero, Option.some.injEq, true_and]
    rfl
  · rw [if_neg isPop, if_neg fun all => isPop (Option.some.inj all.1)]
    rfl

namespace Machine

variable {env : Env} {db : Database} {m : Machine} {closure : Closure} {l : Locals}

/-- The closure has paid for one instruction, which has left this stack. -/
def restacks (m : Machine) (closure : Closure) (l : Locals) (stack : List Int) : Machine :=
  { m with
    control := .running { closure with gas := closure.gas - 1 }
      { l with pc := l.pc + 1, stack := stack } }

variable {rest : List Int}

theorem step_pop {top : Int} (running : m.control = .running closure l)
    (found : opAt closure.code l.pc = some .pop) (gas : 1 ≤ closure.gas)
    (stack : l.stack = top :: rest) : m.step env db = m.restacks closure l rest := by
  have plain : Plain env db .pop := ⟨fun _ => rfl, fun _ _ _ => rfl, fun _ _ _ => rfl⟩
  rw [step_plain running found gas plain]
  simp [Locals.exec, Stack.pop, stack, restacks, settle]

theorem swapn_eq (top other : Int) (middle rest : List Int) :
    Stack.swapn (top :: (middle ++ other :: rest)) (middle.length + 1) =
      some (other :: (middle ++ top :: rest)) := by
  simp [Stack.swapn]

theorem step_swap {depth : Nat} {top other : Int} {middle : List Int}
    (running : m.control = .running closure l) (found : opAt closure.code l.pc = some (.swap depth))
    (gas : 1 ≤ closure.gas) (stack : l.stack = top :: (middle ++ other :: rest))
    (length : middle.length + 1 = depth) :
    m.step env db = m.restacks closure l (other :: (middle ++ top :: rest)) := by
  have plain : Plain env db (.swap depth) := ⟨fun _ => rfl, fun _ _ _ => rfl, fun _ _ _ => rfl⟩
  rw [step_plain running found gas plain]
  simp [Locals.exec, stack, ← length, swapn_eq, restacks, settle]

theorem step_dup_iff {depth : Nat} {v : Int} {middle : List Int}
    (small : closure.code.length < 2 ^ 63) (running : m.control = .running closure l)
    (found : opAt closure.code l.pc = some (.dup depth)) (gas : 1 ≤ closure.gas)
    (stack : l.stack = middle ++ v :: rest) (length : middle.length + 1 = depth) :
    m.step env db = m.restacks closure l (v :: l.stack) ↔
      ¬ (opAt closure.code (l.pc + 1) = some .pop ∧ opAt closure.code (l.pc + 2) = some .pop ∧
        v = 0) := by
  have plain : Plain env db (.dup depth) := ⟨fun _ => rfl, fun _ _ _ => rfl, fun _ _ _ => rfl⟩
  have entry : l.stack[depth - 1]? = some v := by
    rw [stack, ← length, Nat.add_sub_cancel, List.getElem?_append_right le_rfl, Nat.sub_self]
    rfl
  have bounds := bounds_of_opAt found (by simp)
  rw [step_plain running found gas plain]
  simp only [Locals.exec, entry, Option.bind_eq_bind, Option.bind_some,
    Locals.printable_eq small bounds]
  by_cases prints : opAt closure.code (l.pc + 1) = some .pop ∧
      opAt closure.code (l.pc + 2) = some .pop ∧ v = 0
  · rw [if_pos prints]
    simp [prints, restacks, leave]
  · rw [if_neg prints]
    exact iff_of_true rfl prints

/-- `POP` and `SWAP` have their effect on every stack that is deep enough, and `DUP` on exactly
those whose value is not zero in front of two `POP`s. -/
theorem stack_manipulation_iff (env : Env) (db : Database) (m : Machine) (closure : Closure)
    (l : Locals) (small : closure.code.length < 2 ^ 63) (running : m.control = .running closure l)
    (gas : 1 ≤ closure.gas) :
    (∀ top rest, opAt closure.code l.pc = some .pop → l.stack = top :: rest →
      m.step env db = m.restacks closure l rest) ∧
    (∀ depth top middle other rest, opAt closure.code l.pc = some (.swap depth) →
      l.stack = top :: (middle ++ other :: rest) → middle.length + 1 = depth →
      m.step env db = m.restacks closure l (other :: (middle ++ top :: rest))) ∧
    ∀ depth middle v rest, opAt closure.code l.pc = some (.dup depth) →
      l.stack = middle ++ v :: rest → middle.length + 1 = depth →
      (m.step env db = m.restacks closure l (v :: l.stack) ↔
        ¬ (opAt closure.code (l.pc + 1) = some .pop ∧ opAt closure.code (l.pc + 2) = some .pop ∧
          v = 0)) := by
  refine ⟨?_, ?_, ?_⟩
  · intro top rest found stack
    exact step_pop running found gas stack
  · intro depth top middle other rest found stack length
    exact step_swap running found gas stack length
  · intro depth middle v rest found stack length
    exact step_dup_iff small running found gas stack length

/-- `DUP2` of seven in front of two `POP`s. -/
theorem stack_manipulation_iff_seven :
    ((wordMachine [0x60, 7, 0x60, 0, 0x81, 0x50, 0x50]).after callingEnv ∅ 2).step callingEnv ∅ =
      ((wordMachine [0x60, 7, 0x60, 0, 0x81, 0x50, 0x50]).after callingEnv ∅ 2).restacks
        { wordClosure [0x60, 7, 0x60, 0, 0x81, 0x50, 0x50] with gas := 98 } ⟨4, [0, 7], []⟩
        [7, 0, 7] := by
  obtain ⟨-, -, dups⟩ := stack_manipulation_iff callingEnv ∅
    ((wordMachine [0x60, 7, 0x60, 0, 0x81, 0x50, 0x50]).after callingEnv ∅ 2)
    { wordClosure [0x60, 7, 0x60, 0, 0x81, 0x50, 0x50] with gas := 98 } ⟨4, [0, 7], []⟩
    (by decide) rfl (by decide)
  exact (dups 2 [0] 7 [] (by decide) rfl rfl).mpr (by decide)

/-- `DUP1` of zero in front of two `POP`s leaves the closure. -/
theorem dup_of_zero_fails :
    ((wordMachine [0x60, 0, 0x80, 0x50, 0x50]).after callingEnv ∅ 1).stack? = some [0] ∧
      ((wordMachine [0x60, 0, 0x80, 0x50, 0x50]).after callingEnv ∅ 1).instruction = some (.dup 1) ∧
      ((wordMachine [0x60, 0, 0x80, 0x50, 0x50]).after callingEnv ∅ 2).stack? = none := by
  decide +kernel

end Machine

end Thelonious
