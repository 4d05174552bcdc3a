import Thelonious.Vm.Arithmetic
import Thelonious.Vm.Frames
import Thelonious.Vm.Memory

/-!
# Fetching instructions

`Closure.Gets` serves both the fetch of an instruction and the immediates of `PUSH`.
Its second guard compares the number of bytes that are asked for with the length of
the code, and an immediate that the end of the code cuts off panics.
-/

namespace Thelonious

/-- The instruction that the code has at a position, which is `STOP` past the end. -/
def instructionAt (code : Bytes) (pos : Nat) : OpCode := .ofNat (byteOrZero code pos).toNat

/-- The number that the `width` bytes after a position stand for. -/
def immediate (code : Bytes) (pos width : Nat) : Int :=
  bigD ((List.range width).map fun i => byteOrZero code (pos + 1 + i))

/-- The immediate is inside the code or wholly past its end, or the code is so short that
zero is pushed, and zero it is. -/
def Whole (code : Bytes) (pos width : Nat) : Prop :=
  pos + 1 + width ≤ code.length ∨ code.length ≤ pos + 1 ∨
    code.length ≤ width ∧ immediate code pos width = 0

instance (code : Bytes) (pos width : Nat) : Decidable (Whole code pos width) :=
  inferInstanceAs (Decidable (_ ∨ _ ∨ _))

/-! ### `Gets` -/

section Gets

variable {code : Bytes}

theorem gets_of_le {pos width : Nat} (posSmall : pos < 2 ^ 63) (widthSmall : width < 2 ^ 63)
    (past : code.length ≤ pos ∨ code.length ≤ width) : gets code pos width = some (.int 0) := by
  unfold gets
  rw [int64_natCast posSmall, int64_natCast widthSmall]
  exact if_pos (by omega)

theorem gets_inside (small : code.length < 2 ^ 63) {pos width : Nat} (inside : pos < code.length)
    (shorter : width < code.length) :
    gets code pos width =
      if pos + width ≤ code.length then some (.bytes ((code.drop pos).take width)) else none := by
  have posEq : int64 (pos : Int) = pos := int64_natCast (by omega)
  have widthEq : int64 (width : Int) = width := int64_natCast (by omega)
  unfold gets
  rw [posEq, widthEq, if_neg (by omega)]
  by_cases whole : pos + width ≤ code.length
  · have stopEq : int64 ((pos : Int) + width) = (pos + width : Nat) :=
      int64_natCast (show pos + width < 2 ^ 63 by omega)
    rw [stopEq, if_pos (by omega), if_pos whole, Int.toNat_natCast, Int.toNat_natCast,
      List.drop_take]
    rw [Nat.add_sub_cancel_left]
  · rw [if_neg whole]
    by_cases wraps : pos + width < 2 ^ 63
    · have stopEq : int64 ((pos : Int) + width) = (pos + width : Nat) := int64_natCast wraps
      rw [stopEq, if_neg (by omega)]
    · have negative : int64 ((pos : Int) + width) < 0 := by
        unfold int64
        rw [Int.bmod_def]
        split <;> omega
      rw [if_neg (by omega)]

end Gets

variable {code script : Bytes} {pos : Nat}

theorem instructionAt_of_le (past : code.length ≤ pos) : instructionAt code pos = .stop := by
  rw [instructionAt, byteOrZero, List.getElem?_eq_none past]
  rfl

theorem ofNat_eq_stop_iff (byte : UInt8) : OpCode.ofNat byte.toNat = .stop ↔ byte = 0 := by
  revert byte
  decide +kernel

/-- Codes of one byte apart, the instruction is the one of the code. -/
theorem opAt_natCast (small : code.length < 2 ^ 63) (posSmall : pos < 2 ^ 63) :
    opAt code pos = some (if code.length = 1 then .stop else instructionAt code pos) := by
  unfold opAt
  by_cases past : code.length ≤ pos
  · rw [show (1 : Int) = (1 : Nat) from rfl, gets_of_le posSmall (by omega) (.inl past),
      instructionAt_of_le past, ite_self]
    rfl
  · by_cases single : code.length = 1
    · rw [show (1 : Int) = (1 : Nat) from rfl, gets_of_le posSmall (by omega) (.inr single.le),
        if_pos single]
      rfl
    · have inside : pos < code.length := not_le.mp past
      rw [show (1 : Int) = (1 : Nat) from rfl, gets_inside small inside (by omega),
        if_pos (by omega),
        if_neg single, List.drop_eq_getElem_cons inside, List.take_succ_cons, List.take_zero]
      rw [instructionAt, byteOrZero, List.getElem?_eq_getElem inside]
      have byteEq : (UInt64.ofNat (BigEndian.value [code[pos]])).toNat = code[pos].toNat := by
        have below := code[pos].toNat_lt
        rw [← List.nil_append [code[pos]], BigEndian.value_append_singleton, BigEndian.value_nil,
          UInt64.toNat_ofNat']
        omega
      exact congrArg (fun number => some (OpCode.ofNat number)) byteEq

theorem fetch_iff (small : code.length < 2 ^ 63) (posSmall : pos < 2 ^ 63) :
    opAt code pos = some (instructionAt code pos) ↔ (code.length = 1 → pos = 0 → code = [0]) := by
  rw [opAt_natCast small posSmall, Option.some.injEq]
  by_cases single : code.length = 1
  · obtain ⟨byte, rfl⟩ := List.length_eq_one_iff.mp single
    rw [if_pos single]
    by_cases first : pos = 0
    · subst first
      have fetched : instructionAt [byte] 0 = .ofNat byte.toNat := rfl
      rw [fetched, eq_comm, ofNat_eq_stop_iff]
      simp
    · rw [instructionAt_of_le (by simp; omega)]
      simp [first]
  · rw [if_neg single]
    exact iff_of_true rfl fun isSingle => absurd isSingle single

/-! ### `PUSH` -/

theorem immediate_inside {width : Nat} (inside : pos + 1 + width ≤ code.length) :
    immediate code pos width = bigD ((code.drop (pos + 1)).take width) := by
  unfold immediate
  congr 1
  apply List.ext_getElem?
  intro i
  rw [List.getElem?_map, List.getElem?_take, List.getElem?_drop]
  by_cases member : i < width
  · rw [List.getElem?_range member, if_pos member, Option.map_some, byteOrZero,
      List.getElem?_eq_getElem (by omega), Option.getD_some]
  · rw [List.getElem?_eq_none (by simpa using member), if_neg member, Option.map_none]

theorem immediate_of_le (past : code.length ≤ pos + 1) (width : Nat) :
    immediate code pos width = 0 := by
  have zeros : (List.range width).map (fun i => byteOrZero code (pos + 1 + i)) =
      List.replicate width 0 := by
    rw [List.eq_replicate_iff]
    constructor
    case left => simp
    case right =>
      intro byte member
      obtain ⟨i, -, rfl⟩ := List.mem_map.mp member
      rw [byteOrZero, List.getElem?_eq_none (by omega), Option.getD_none]
  have value := BigEndian.value_replicate_zero_append width []
  rw [List.append_nil, BigEndian.value_nil] at value
  rw [immediate, zeros, bigD, value]
  rfl

theorem width_of_instructionAt {width : Nat} (isPush : instructionAt code pos = .push width) :
    1 ≤ width ∧ width ≤ 32 := by
  have table : ∀ byte : UInt8,
      OpCode.ofNat byte.toNat = .push (OpCode.ofNat byte.toNat).width →
        1 ≤ (OpCode.ofNat byte.toNat).width ∧ (OpCode.ofNat byte.toNat).width ≤ 32 := by
    decide +kernel
  have entry := table (byteOrZero code pos)
  rw [show OpCode.ofNat (byteOrZero code pos).toNat = .push width from isPush] at entry
  exact entry rfl

theorem instructionAt_of_opAt (small : code.length < 2 ^ 63) {op : OpCode} (posSmall : pos < 2 ^ 63)
    (found : opAt code pos = some op) (notStop : op ≠ .stop) :
    instructionAt code pos = op ∧ pos < code.length := by
  rw [opAt_natCast small posSmall, Option.some.injEq] at found
  split at found
  · exact absurd found.symm notStop
  · refine ⟨found, ?_⟩
    by_contra past
    rw [instructionAt_of_le (not_lt.mp past)] at found
    exact notStop found.symm

namespace Machine

variable {env : Env} {db : Database} {m : Machine} {closure : Closure} {l : Locals}

/-- The closure has paid for a `PUSH`, which has left `value` on the stack. -/
def pushed (m : Machine) (closure : Closure) (l : Locals) (width : Nat) (value : Int) : Machine :=
  { m with
    control := .running { closure with gas := closure.gas - 1 }
      { l with pc := l.pc + width + 1, stack := value :: l.stack } }

theorem plain_push (width : Nat) : Plain env db (.push width) :=
  ⟨fun _ => rfl, fun _ _ _ => rfl, fun _ _ _ => rfl⟩

theorem step_push_iff {width : Nat} {value : Int} (running : m.control = .running closure l)
    (found : opAt closure.code l.pc = some (.push width)) (gas : 1 ≤ closure.gas) :
    m.step env db = m.pushed closure l width value ↔
      ∃ data, gets closure.code (l.pc + 1) width = some data ∧ bigD data.asBytes = value := by
  have executes : ∀ gas self caller callStack,
      l.exec env { closure with gas := gas } self caller callStack (.push width) =
        (gets closure.code (l.pc + 1) width).map fun data =>
          .next { l with pc := l.pc + width, stack := bigD data.asBytes :: l.stack } := by
    intro gas self caller callStack
    cases fetched : gets closure.code (l.pc + 1) width with
    | none => simp [Locals.exec, fetched]
    | some data => simp [Locals.exec, fetched]
  rw [step_plain running found gas (plain_push width), executes]
  cases gets closure.code (l.pc + 1) width with
  | none => simp [pushed, leave]
  | some data => simp [pushed, settle]

theorem push_iff {width pos : Nat} (small : closure.code.length < 2 ^ 63) (posSmall : pos < 2 ^ 63)
    (running : m.control = .running closure l) (pcEq : l.pc = pos)
    (found : opAt closure.code l.pc = some (.push width)) (gas : 1 ≤ closure.gas) :
    m.step env db = m.pushed closure l width (immediate closure.code pos width) ↔
      Whole closure.code pos width := by
  rw [step_push_iff running found gas]
  rw [pcEq] at found ⊢
  obtain ⟨isPush, inside⟩ := instructionAt_of_opAt small posSmall found (by simp)
  obtain ⟨positive, narrow⟩ := width_of_instructionAt isPush
  have next : (pos : Int) + 1 = (pos + 1 : Nat) := rfl
  rw [next]
  unfold Whole
  by_cases past : closure.code.length ≤ pos + 1 ∨ closure.code.length ≤ width
  · have zero : bigD (Value.int 0).asBytes = 0 := by decide
    rw [gets_of_le (by omega) (by omega) past]
    simp only [Option.some.injEq, exists_eq_left', zero]
    constructor
    · intro isZero
      rcases past with past | past
      · exact .inr (.inl past)
      · exact .inr (.inr ⟨past, isZero.symm⟩)
    · rintro (whole | past | ⟨-, isZero⟩)
      · omega
      · exact (immediate_of_le past width).symm
      · exact isZero.symm
  · rw [gets_inside small (by omega) (by omega)]
    by_cases whole : pos + 1 + width ≤ closure.code.length
    · rw [if_pos whole, immediate_inside whole]
      exact iff_of_true ⟨_, rfl, rfl⟩ (.inl whole)
    · rw [if_neg whole]
      refine iff_of_false ?_ ?_
      · rintro ⟨data, impossible, -⟩
        cases impossible
      · omega

end Machine

/-! ### `Disassemble` -/

/-- A line of `Disassemble`, before it is printed. -/
inductive AsmLine
  | op (code : UInt8)
  | data (bytes : Bytes)

/-- The loop of `Disassemble` from `pc` on; `none` is the return for an immediate that is cut
off.  Every round takes a byte, so there are as many as the script has bytes. -/
def disassembleFrom (script : Bytes) : Nat → Nat → Option (List AsmLine)
  | 0, _ => some []
  | rounds + 1, pc =>
      match script[pc]? with
      | none => some []
      | some val =>
          match OpCode.ofNat val.toNat with
          | .push a =>
              if script.length < pc + 1 + a then none
              else do
                let asm ← disassembleFrom script rounds (pc + 1 + a)
                return .op val :: .data ((script.drop (pc + 1)).take a) :: asm
          | _ => do
              let asm ← disassembleFrom script rounds (pc + 1)
              return .op val :: asm

/-- `Disassemble`; nil is the list without lines. -/
def disassemble (script : Bytes) : List AsmLine :=
  (disassembleFrom script script.length 0).getD []

/-- Where the instructions are that the lines are about. -/
def boundaries (pc : Nat) : List AsmLine → List Nat
  | [] => []
  | .op _ :: asm => pc :: boundaries (pc + 1) asm
  | .data bytes :: asm => boundaries (pc + bytes.length) asm

/-- From one position to the next, up to the end of the script. -/
structure Spaced (script : Bytes) (pc : Nat) (positions : List Nat) : Prop where
  first : positions[0]? = some pc
  next {i pos : Nat} : positions[i]? = some pos → pos < script.length →
    positions[i + 1]? = some (pos + 1 + (instructionAt script pos).width)
  inside {i pos : Nat} : positions[i]? = some pos → pos ≤ script.length

theorem Spaced.cons {pc next : Nat} {positions : List Nat} (spaced : Spaced script next positions)
    (le : pc ≤ script.length)
    (nextEq : pc < script.length → next = pc + 1 + (instructionAt script pc).width) :
    Spaced script pc (pc :: positions) where
  first := rfl
  next {i pos} found below := by
    cases i with
    | zero =>
        cases found
        rw [← nextEq below]
        exact spaced.first
    | succ i => exact spaced.next found below
  inside {i pos} found := by
    cases i with
    | zero =>
        cases found
        exact le
    | succ i => exact spaced.inside found

theorem spaced_end (script : Bytes) : Spaced script script.length [script.length] where
  first := rfl
  next {i pos} found below := by
    rw [List.getElem?_singleton] at found
    split at found
    · cases found
      exact absurd below (lt_irrefl _)
    · cases found
  inside {i pos} found := by
    rw [List.getElem?_singleton] at found
    split at found
    · exact (Option.some.inj found).ge
    · cases found

theorem spaced_disassembleFrom {rounds pc : Nat} {asm : List AsmLine}
    (lines : disassembleFrom script rounds pc = some asm) (le : pc ≤ script.length)
    (enough : script.length ≤ pc + rounds) :
    Spaced script pc (boundaries pc asm ++ [script.length]) := by
  induction rounds generalizing pc asm with
  | zero =>
      cases lines
      obtain rfl : pc = script.length := by omega
      exact spaced_end script
  | succ rounds induction =>
      rw [disassembleFrom] at lines
      cases byte : script[pc]? with
      | none =>
          rw [byte] at lines
          cases lines
          have past := List.getElem?_eq_none_iff.mp byte
          obtain rfl : pc = script.length := by omega
          exact spaced_end script
      | some val =>
          rw [byte] at lines
          have below : pc < script.length := (List.getElem?_eq_some_iff.mp byte).1
          have instruction : instructionAt script pc = .ofNat val.toNat := by
            rw [instructionAt, byteOrZero, byte, Option.getD_some]
          dsimp only at lines
          split at lines
          · rename_i a isPush
            split at lines
            · cases lines
            · obtain ⟨rest, restEq, lines⟩ := Option.bind_eq_some_iff.mp lines
              cases lines
              have width : ((script.drop (pc + 1)).take a).length = a := by
                rw [List.length_take, List.length_drop]
                omega
              rw [boundaries, boundaries, width]
              apply (induction restEq (by omega) (by omega)).cons le
              intro _
              rw [instruction, isPush]
              rfl
          · rename_i notPush
            obtain ⟨rest, restEq, lines⟩ := Option.bind_eq_some_iff.mp lines
            cases lines
            rw [boundaries]
            apply (induction restEq (by omega) (by omega)).cons le
            intro _
            rw [instruction, OpCode.width]
            exact notPush

/-- The instructions of a script that `Disassemble` does not give up on, and its end. -/
theorem spaced_disassemble (complete : disassemble script ≠ []) :
    Spaced script 0 (boundaries 0 (disassemble script) ++ [script.length]) := by
  unfold disassemble at complete ⊢
  cases lines : disassembleFrom script script.length 0 with
  | none => simp [lines] at complete
  | some asm =>
      rw [Option.getD_some]
      exact spaced_disassembleFrom lines (by omega) (by omega)

namespace Machine

variable {env : Env} {db : Database} {m : Machine} {closure : Closure} {l : Locals}
  {paid : Paid env db m}

/-- Without a jump the next instruction is behind this one and its immediate. -/
theorem Paid.Performs.pc_eq {outcome : Outcome} {locals : Locals} (performs : paid.Performs outcome)
    (goes : outcome.Goes locals) (straight : paid.op ≠ .jump ∧ paid.op ≠ .jumpi) :
    locals.pc = paid.l.pc + paid.op.width + 1 := by
  have moves : paid.locals.Does paid.op outcome → locals.pc = paid.l.pc + paid.op.width + 1 := by
    intro does
    cases does with
    | compute stack width => rw [goes, width]; simp [Paid.locals]
    | push width stack isPush => rw [goes, isPush]; rfl
    | write stack mem writes width => rw [goes, width]; simp [Paid.locals]
    | jump pos stack isJump => exact absurd isJump (not_or.mpr straight)
    | halt ret => exact goes.elim
  cases performs with
  | exec self caller callStack executed => exact moves (Locals.does_of_exec executed)
  | access w accessed => exact moves (World.does_of_access accessed)
  | post msg rest isPost operands outcomeEq =>
      obtain ⟨_, _, _, _, -, rfl⟩ := messageOperands_cases operands
      rw [outcomeEq] at goes
      rw [goes, isPost]
      simp [Paid.locals, OpCode.width]

theorem Paid.Sends.width_eq {msg : Message} {caller : Waiting} (sends : paid.Sends msg caller) :
    paid.op.width = 0 ∧ paid.op ≠ .stop := by
  cases sends with
  | call isCall retOffset retSize operands pending closure =>
      rcases isCall with isCall | isCall
      · rw [isCall]
        exact ⟨rfl, by simp⟩
      · rw [isCall]
        exact ⟨rfl, by simp⟩
  | create isCreate addr input value operands message pending closure =>
      rw [isCreate]
      exact ⟨rfl, by simp⟩

theorem Paid.Performs.notStop {outcome : Outcome} {locals : Locals}
    (performs : paid.Performs outcome) (goes : outcome.Goes locals) : paid.op ≠ .stop := by
  intro isStop
  cases performs with
  | exec self caller callStack executed =>
      rw [isStop] at executed
      cases executed
      exact goes
  | access w accessed =>
      rw [isStop] at accessed
      cases accessed
  | post msg rest isPost operands outcomeEq => cases isPost.symm.trans isStop

/-! ### Straight-line code -/

/-- The positions at which the closure that `m` runs has fetched its instructions. -/
def fetches (env : Env) (db : Database) (m : Machine) : Nat → List Int
  | 0 => []
  | steps + 1 =>
      fetches env db m steps ++
        match (m.after env db steps).control with
        | .running _ l =>
            if (m.after env db steps).waiting.length = m.waiting.length then [l.pc] else []
        | _ => []

/-- The next position at which a frame fetches: a closure that waits goes on behind the
instruction it waits at. -/
def nextFetch (m : Machine) (depth : Nat) (l : Locals) : Int :=
  if m.waiting.length = depth then l.pc else l.pc + 1

theorem fetches_of_inside {steps : Nat}
    (inside : (m.after env db steps).waiting.length ≠ m.waiting.length) :
    m.fetches env db (steps + 1) = m.fetches env db steps := by
  rw [fetches]
  split
  · rw [if_neg inside, List.append_nil]
  · exact List.append_nil _

theorem fetches_of_running {steps : Nat}
    (running : (m.after env db steps).control = .running closure l)
    (top : (m.after env db steps).waiting.length = m.waiting.length) :
    m.fetches env db (steps + 1) = m.fetches env db steps ++ [l.pc] := by
  rw [fetches, running]
  dsimp only
  rw [if_pos top]

theorem map_take_succ {positions : List Nat} {count pos : Nat}
    (found : positions[count]? = some pos) :
    (positions.take (count + 1)).map (Nat.cast : Nat → Int) =
      (positions.take count).map Nat.cast ++ [(pos : Int)] := by
  rw [List.take_add_one, found, List.map_append]
  rfl

/-- The closure of the frame has fetched at the first positions, and fetches at the one
after them next. -/
def Follows (env : Env) (db : Database) (m : Machine) (code : Bytes) (positions : List Nat)
    (steps : Nat) : Prop :=
  ∃ (closure : Closure) (l : Locals) (count pos : Nat),
    (m.after env db steps).activation m.waiting.length = some (closure, l) ∧
    closure.code = code ∧ positions[count]? = some pos ∧
    (m.after env db steps).nextFetch m.waiting.length l = pos ∧
    m.fetches env db steps = (positions.take count).map Nat.cast

section Follows

variable {code : Bytes} {positions : List Nat} {steps : Nat}

theorem nextFetch_of_eq {depth : Nat} (top : m.waiting.length = depth) :
    m.nextFetch depth l = l.pc := if_pos top

theorem nextFetch_of_ne {depth : Nat} (inside : m.waiting.length ≠ depth) :
    m.nextFetch depth l = l.pc + 1 := if_neg inside

/-- The closure has fetched at `pos`, and the positions go on behind the instruction. -/
theorem Paid.next_position (paid : Paid env db m) (small : code.length < 2 ^ 63)
    (spaced : Spaced code 0 positions) {count pos : Nat} (codeEq : paid.caller.code = code)
    (listed : positions[count]? = some pos) (pcEq : paid.l.pc = pos) (notStop : paid.op ≠ .stop) :
    positions[count + 1]? = some (pos + paid.op.width + 1) := by
  have inside := spaced.inside listed
  have found := paid.found
  rw [codeEq, pcEq] at found
  obtain ⟨instruction, below⟩ := instructionAt_of_opAt small (by omega) found notStop
  rw [spaced.next listed below, instruction, Nat.add_right_comm]

theorem Follows.step (follows : m.Follows env db code positions steps)
    (small : code.length < 2 ^ 63) (spaced : Spaced code 0 positions)
    (lives : ((m.after env db (steps + 1)).activation m.waiting.length).isSome)
    (straight : (m.after env db steps).waiting.length = m.waiting.length →
      (m.after env db steps).instruction ≠ some .jump ∧
        (m.after env db steps).instruction ≠ some .jumpi) :
    m.Follows env db code positions (steps + 1) := by
  obtain ⟨closure, l, count, pos, found, codeEq, listed, nextEq, fetched⟩ := follows
  obtain ⟨now, kept⟩ := Option.isSome_iff_exists.mp lives
  have kept' := kept
  rw [after_succ] at kept'
  cases (move_step env db (m.after env db steps)).stride found kept' with
  | inside before later =>
      rw [← after_succ] at later
      refine ⟨closure, l, count, pos, kept, codeEq, listed, ?_, ?_⟩
      · rw [nextFetch_of_ne later.ne', ← nextEq, nextFetch_of_ne before.ne']
      · rw [fetches_of_inside before.ne', fetched]
  | go paid outcome locals before waiting control performs goes =>
      rw [nextFetch_of_eq before] at nextEq
      have going : paid.op ≠ .jump ∧ paid.op ≠ .jumpi := by
        have instruction : (m.after env db steps).instruction = some paid.op := by
          rw [instruction, paid.running]
          exact paid.found
        have moving := straight before
        rw [instruction] at moving
        exact ⟨fun isJump => moving.1 (congrArg some isJump),
          fun isJump => moving.2 (congrArg some isJump)⟩
      refine ⟨paid.closure, locals, count + 1, pos + paid.op.width + 1, kept, codeEq,
        paid.next_position small spaced codeEq listed nextEq (performs.notStop goes), ?_, ?_⟩
      · rw [after_succ, nextFetch_of_eq (by rw [waiting, before]), performs.pc_eq goes going,
          nextEq]
        push_cast
        rfl
      · rw [fetches_of_running paid.running before, fetched, nextEq, map_take_succ listed]
  | send paid msg caller before waiting control sends =>
      rw [nextFetch_of_eq before] at nextEq
      obtain ⟨width, notStop⟩ := sends.width_eq
      have next := paid.next_position small spaced codeEq listed nextEq notStop
      rw [width] at next
      have sameCode : caller.closure.code = code := by
        cases sends with
        | call isCall retOffset retSize operands pending closure =>
            rw [closure]
            exact codeEq
        | create isCreate addr input value operands message pending closure =>
            rw [closure]
            exact codeEq
      obtain ⟨stack, localsEq⟩ := sends.shortens
      refine ⟨caller.closure, caller.locals, count + 1, pos + 0 + 1, kept, sameCode, next, ?_, ?_⟩
      · rw [after_succ, nextFetch_of_ne (by rw [waiting, List.length_cons]; omega), localsEq]
        change paid.l.pc + 1 = _
        rw [nextEq]
        push_cast
        rfl
      · rw [fetches_of_running paid.running before, fetched, nextEq, map_take_succ listed]
  | resume result caller top mem returning waiting now receives =>
      have deeper : (m.after env db steps).waiting.length ≠ m.waiting.length := by
        rw [waiting, List.length_cons, now]
        omega
      rw [nextFetch_of_ne deeper] at nextEq
      refine ⟨_, _, count, pos, kept, codeEq, listed, ?_, ?_⟩
      · rw [after_succ, nextFetch_of_eq now]
        exact nextEq
      · rw [fetches_of_inside deeper, fetched]

theorem follows_start (running : m.control = .running closure l) (start : l.pc = 0)
    (spaced : Spaced closure.code 0 positions) : m.Follows env db closure.code positions 0 := by
  refine ⟨closure, l, 0, 0, activation_of_running running, rfl, spaced.first, ?_, rfl⟩
  exact (nextFetch_of_eq rfl).trans start

theorem Follows.fetches_begin (follows : m.Follows env db code positions steps) :
    m.fetches env db (steps + 1) <+: positions.map Nat.cast := by
  obtain ⟨closure, l, count, pos, found, -, listed, nextEq, fetched⟩ := follows
  by_cases top : (m.after env db steps).waiting.length = m.waiting.length
  · obtain ⟨-, running⟩ := running_of_activation found top.le
    rw [nextFetch_of_eq top] at nextEq
    rw [fetches_of_running running top, fetched, nextEq, ← map_take_succ listed]
    exact List.IsPrefix.map _ <| List.take_prefix _ _
  · rw [fetches_of_inside top, fetched]
    exact List.IsPrefix.map _ <| List.take_prefix _ _

/-- A closure that does not jump fetches its instructions where `Disassemble` finds them, one
after the other. -/
theorem fetches_of_straight (small : closure.code.length < 2 ^ 63)
    (complete : disassemble closure.code ≠ []) (running : m.control = .running closure l)
    (start : l.pc = 0)
    (lives : ∀ i ≤ steps, ((m.after env db i).activation m.waiting.length).isSome)
    (straight : ∀ i < steps, (m.after env db i).waiting.length = m.waiting.length →
      (m.after env db i).instruction ≠ some .jump ∧ (m.after env db i).instruction ≠ some .jumpi) :
    m.fetches env db (steps + 1) <+:
      (boundaries 0 (disassemble closure.code) ++ [closure.code.length]).map Nat.cast := by
  have spaced := spaced_disassemble complete
  apply Follows.fetches_begin
  case follows =>
    induction steps with
    | zero => exact follows_start running start spaced
    | succ steps induction =>
        apply Follows.step _ small spaced (lives (steps + 1) le_rfl) (straight steps (by omega))
        exact induction (fun i le => lives i (by omega)) fun i lt => straight i (by omega)

end Follows

/-! ### Instruction boundaries -/

/-- Exactly the codes of one byte that is not `STOP` are not fetched, and `PUSH` has its number
and goes on behind it exactly where the immediate is whole; a closure that does not jump
visits the instructions of `Disassemble`. -/
theorem fetch_and_immediates (code : Bytes) (small : code.length < 2 ^ 63) :
    (∀ pos : Nat, pos < 2 ^ 63 → (opAt code pos = some (instructionAt code pos) ↔
      (code.length = 1 → pos = 0 → code = [0]))) ∧
    ∀ (env : Env) (db : Database) (m : Machine) (closure : Closure) (l : Locals),
      m.control = .running closure l → closure.code = code →
      (∀ pos width : Nat, pos < 2 ^ 63 → l.pc = pos → opAt code l.pc = some (.push width) →
        1 ≤ closure.gas →
        (m.step env db = m.pushed closure l width (immediate code pos width) ↔
          Whole code pos width)) ∧
      (disassemble code ≠ [] → l.pc = 0 → ∀ steps : Nat,
        (∀ i ≤ steps, ((m.after env db i).activation m.waiting.length).isSome) →
        (∀ i < steps, (m.after env db i).waiting.length = m.waiting.length →
          (m.after env db i).instruction ≠ some .jump ∧
            (m.after env db i).instruction ≠ some .jumpi) →
        m.fetches env db (steps + 1) <+:
          (boundaries 0 (disassemble code) ++ [code.length]).map Nat.cast) := by
  constructor
  case left =>
    intro pos posSmall
    exact fetch_iff small posSmall
  case right =>
    rintro env db m closure l running rfl
    constructor
    case left =>
      intro pos width posSmall pcEq found gas
      exact push_iff small posSmall running pcEq found gas
    case right =>
      intro complete start steps lives straight
      exact fetches_of_straight small complete running start lives straight

/-- `PUSH2` of 258, and the fetches of the whole code. -/
theorem fetch_and_immediates_258 :
    (wordMachine [0x61, 1, 2, 0x50]).step callingEnv ∅ =
      (wordMachine [0x61, 1, 2, 0x50]).pushed (wordClosure [0x61, 1, 2, 0x50]) ⟨0, [], []⟩ 2 258 ∧
    (wordMachine [0x61, 1, 2, 0x50]).fetches callingEnv ∅ 3 = [0, 3, 4] ∧
    (wordMachine [0x61, 1, 2, 0x50]).fetches callingEnv ∅ 3 <+: [0, 3, 4] := by
  obtain ⟨-, runs⟩ := fetch_and_immediates [0x61, 1, 2, 0x50] (by decide)
  obtain ⟨pushes, visits⟩ := runs callingEnv ∅ (wordMachine [0x61, 1, 2, 0x50])
    (wordClosure [0x61, 1, 2, 0x50]) ⟨0, [], []⟩ rfl rfl
  refine ⟨(pushes 0 2 (by decide) rfl (by decide) (by decide)).mpr (by decide), by decide +kernel,
    ?_⟩
  exact visits (by decide) rfl 2 (by decide +kernel) (by decide +kernel)

/-- A code of one byte stops at once, an immediate that is cut off leaves the closure, and one
that is as long as the code is zero. -/
theorem fetch_and_immediates_fail :
    (instructionAt [0x5b] 0 = .msize ∧ opAt [0x5b] 0 = some .stop) ∧
    (immediate [0x60, 0, 0x61, 7] 2 2 = 1792 ∧
      ((wordMachine [0x60, 0, 0x61, 7]).after callingEnv ∅ 1).stack? = some [0] ∧
      ((wordMachine [0x60, 0, 0x61, 7]).after callingEnv ∅ 2).stack? = none) ∧
    (immediate [0x61, 7] 0 2 = 1792 ∧
      ((wordMachine [0x61, 7]).after callingEnv ∅ 1).stack? = some [0]) := by
  decide +kernel

end Machine

end Thelonious
