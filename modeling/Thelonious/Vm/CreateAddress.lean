import Thelonious.Vm.Gas

/-!
# The address of a created contract

`CREATE` looks for an address at which the state has no object.  The body of its
loop computes another address and drops it, so that the loop ends at once or never.
-/

namespace Thelonious

namespace World

variable {db : Database} {w after : World} {addr : Bytes}

/-- The state has no object for an address, neither a loaded one nor one in its trie. -/
def Vacant (db : Database) (w : World) (addr : Bytes) : Prop :=
  AList.lookup (address addr) w.state.stateObjects = none ∧
    w.state.trie.read db (address addr) = some []

theorem Vacant.missing (vacant : w.Vacant db addr) :
    ∃ trie, w.getStateObject db addr = some (none, w.setTrie trie) ∧
      trie.read db = w.state.trie.read db := by
  obtain ⟨unloaded, readEq⟩ := vacant
  obtain ⟨⟨text, trie⟩, got, rfl⟩ := Option.map_eq_some_iff.mp readEq
  exact ⟨trie, by simp [getStateObject, unloaded, got], Trie.read_of_get got⟩

theorem vacant_of_missing (missing : w.getStateObject db addr = some (none, after)) :
    w.Vacant db addr := by
  unfold getStateObject at missing
  split at missing
  · cases missing
  · rename_i unloaded
    obtain ⟨⟨data, trie⟩, got, missing⟩ := Option.bind_eq_some_iff.mp missing
    dsimp only at missing
    split at missing
    · rename_i empty
      refine ⟨unloaded, ?_⟩
      rw [Trie.read, got, Option.map_some, List.length_eq_zero_iff.mp empty]
    · obtain ⟨object, -, missing⟩ := Option.bind_eq_some_iff.mp missing
      cases missing

theorem getStateObject_again {ref : Ref}
    (found : w.getStateObject db addr = some (some ref, after)) :
    after.getStateObject db addr = some (some ref, after) := by
  have loaded : AList.lookup (address addr) after.state.stateObjects = some ref := by
    unfold getStateObject at found
    split at found
    · rename_i loaded
      cases found
      exact loaded
    · obtain ⟨⟨data, trie⟩, -, found⟩ := Option.bind_eq_some_iff.mp found
      dsimp only at found
      split at found
      · cases found
      · obtain ⟨object, -, found⟩ := Option.bind_eq_some_iff.mp found
        cases found
        exact AList.lookup_insert _
  rw [getStateObject, loaded]

end World

/-- The loop of `CREATE` after a number of turns: it has found a free address, it has
panicked, or it goes on. -/
inductive Search
  | free (w : World)
  | panicked
  | going (w : World)

/-- The loop of `CREATE` that starts with `addr`, from the turn `i` on. -/
def searchAddress (sha3Bin : Bytes → Bytes) (db : Database) (creator : Bytes) (nonce : UInt64)
    (addr : Bytes) : Nat → UInt64 → World → Search
  | 0, _, w => .going w
  | turns + 1, i, w =>
      match w.getStateObject db addr with
      | none => .panicked
      | some (none, w) => .free w
      | some (some _, w) =>
          -- the result is not assigned
          let _ := createAddress sha3Bin creator (nonce + i)
          searchAddress sha3Bin db creator nonce addr turns (i + 1) w

section Search

variable {sha3Bin : Bytes → Bytes} {db : Database} {creator addr : Bytes} {nonce : UInt64}
  {w after : World}

/-- With an object at the first address the loop never ends. -/
theorem searchAddress_of_found {ref : Ref}
    (found : w.getStateObject db addr = some (some ref, after)) (turns : Nat) (i : UInt64) :
    ∃ last, searchAddress sha3Bin db creator nonce addr turns i w = .going last := by
  induction turns generalizing i w after with
  | zero => exact ⟨w, rfl⟩
  | succ turns induction =>
      obtain ⟨last, goes⟩ := induction (World.getStateObject_again found) (i + 1)
      exact ⟨last, by simp only [searchAddress, found, goes]⟩

theorem searchAddress_free_iff :
    (∃ turns after, searchAddress sha3Bin db creator nonce addr turns 0 w = .free after) ↔
      w.Vacant db addr := by
  constructor
  case mp =>
    rintro ⟨turns, after, ends⟩
    cases looked : w.getStateObject db addr with
    | none => cases turns <;> simp [searchAddress, looked] at ends
    | some answer =>
        obtain ⟨found, loaded⟩ := answer
        cases found with
        | none => exact World.vacant_of_missing looked
        | some ref =>
            obtain ⟨last, goes⟩ := searchAddress_of_found looked turns 0
            cases goes.symm.trans ends
  case mpr =>
    intro vacant
    obtain ⟨trie, missing, -⟩ := vacant.missing
    exact ⟨1, w.setTrie trie, by simp only [searchAddress, missing]⟩

end Search

namespace Machine

variable {env : Env} {db : Database} {m : Machine} {closure : Closure} {l : Locals}

/-- The closure executes `CREATE` with the permission, the operands and the gas it needs. -/
structure Creates (env : Env) (m : Machine) (closure : Closure) (l : Locals)
    (value offset size : Int) (rest : List Int) (mem input : Bytes) : Prop where
  running : m.control = .running closure l
  instruction : opAt closure.code l.pc = some .create
  permission : 0 < env.blockNumber → env.dougValidate m.world = true
  stack : l.stack = value :: offset :: size :: rest
  gas : 100 + (l.memoryCost (calcMemSize offset size)).1 ≤ closure.gas
  resized : Memory.resize l.mem (uint64 (l.memoryCost (calcMemSize offset size)).2) = some mem
  input : Memory.get mem (int64 offset) (int64 size) = some input

/-- `CreateAddress(closure.Address(), closure.object.Nonce)` -/
def candidate (env : Env) (m : Machine) (closure : Closure) : Bytes :=
  createAddress env.sha3Bin (m.world.heap closure.object).address
    (m.world.heap closure.object).nonce

section Create

variable {value offset size : Int} {rest : List Int} {mem input : Bytes}

theorem Creates.step_eq (creates : Creates env m closure l value offset size rest mem input)
    (db : Database) :
    ∃ gas, m.step env db = m.create env db { closure with gas := gas }
      { l with mem := mem, stack := rest } value input := by
  have priced : m.world.cost env db closure l .create =
      some (100, calcMemSize offset size, m.world) := by
    have allowed : ¬ (0 < env.blockNumber ∧ env.dougValidate m.world = false) := by
      intro refused
      rw [creates.permission refused.1] at refused
      cases refused.2
    simp [World.cost, allowed, Locals.cost, creates.stack]
  have covered := creates.gas
  refine ⟨closure.gas - (100 + (l.memoryCost (calcMemSize offset size)).1), ?_⟩
  rw [step, creates.running]
  simp only [instruct, creates.instruction, priced]
  rw [if_neg (by omega)]
  simp [creates.resized, perform, createOperands, Stack.pop, Stack.popn, creates.stack,
    creates.input]

theorem control_create (vacant : m.world.Vacant db (m.candidate env closure)) (gas : Int)
    (left : Locals) :
    ∃ msg, (m.create env db { closure with gas := gas } left value input).control =
      .executing msg closure.object ∧ msg.address = m.candidate env closure := by
  obtain ⟨trie, missing, readEq⟩ := vacant.missing
  have still : ((m.world.setTrie trie).modify closure.object .incrementNonce).Vacant db
      (m.candidate env closure) := ⟨vacant.1, by
    rw [← vacant.2]
    exact congrFun readEq _⟩
  obtain ⟨again, missingAgain, -⟩ := still.missing
  have created : ((m.world.setTrie trie).modify closure.object .incrementNonce).getOrNewStateObject
      db (m.candidate env closure) = some (World.newStateObject (((m.world.setTrie trie).modify
        closure.object .incrementNonce).setTrie again) (m.candidate env closure)) := by
    simp [World.getOrNewStateObject, missingAgain]
  unfold candidate at missing created ⊢
  simp only [create, missing, created, send]
  exact ⟨_, rfl, rfl⟩

theorem searching_iff_going (gas : Int) (left : Locals) :
    (m.create env db { closure with gas := gas } left value input).control = .searching ↔
      ∀ turns, ∃ last, searchAddress env.sha3Bin db (m.world.heap closure.object).address
        (m.world.heap closure.object).nonce (m.candidate env closure) turns 0 m.world =
          .going last := by
  unfold candidate create
  dsimp only
  split
  · rename_i panics
    constructor
    · intro control
      cases control
    · intro goes
      obtain ⟨last, goes⟩ := goes 1
      simp [searchAddress, panics] at goes
  · rename_i found
    exact ⟨fun _ turns => searchAddress_of_found found turns 0, fun _ => rfl⟩
  · rename_i missing
    constructor
    · intro control
      split at control
      · cases control
      · cases control
    · intro goes
      obtain ⟨last, goes⟩ := goes 1
      simp [searchAddress, missing] at goes

/-- `CREATE` finishes its search and sends its message to an address at which the state
had no object exactly when the state has no object at the first address it tries. -/
theorem create_fresh_iff (env : Env) (db : Database) (m : Machine) (closure : Closure)
    (l : Locals) (value offset size : Int) (rest : List Int) (mem input : Bytes)
    (creates : Creates env m closure l value offset size rest mem input) :
    ((∃ turns after, searchAddress env.sha3Bin db (m.world.heap closure.object).address
        (m.world.heap closure.object).nonce (m.candidate env closure) turns 0 m.world =
          .free after) ∧
      ∃ msg, (m.step env db).control = .executing msg closure.object ∧
        m.world.Vacant db msg.address) ↔
      m.world.Vacant db (m.candidate env closure) := by
  rw [searchAddress_free_iff]
  constructor
  case mp => exact And.left
  case mpr =>
    intro vacant
    refine ⟨vacant, ?_⟩
    obtain ⟨gas, stepEq⟩ := creates.step_eq db
    obtain ⟨msg, control, addressEq⟩ := control_create vacant gas _
    exact ⟨msg, stepEq ▸ control, addressEq ▸ vacant⟩

end Create

/-- A contract that creates another one. -/
def creatingCode : Bytes := [0x60, 0, 0x60, 0, 0x60, 0, 0xf0]

/-- The hash of the creator and its nonce. -/
def creatingSamples : List (Bytes × Bytes) :=
  [(bigBytes 0xd694000000000000000000000000000000000000000280,
    digest 0x6fefae439a8736246dd3a65ae536720791a7dadbebdbcd8c8546fb0791a11901)]

def creatingEnv : Env :=
  { callingEnv with sha3Bin := sampled creatingSamples fun data => data ++ List.replicate 33 0 }

theorem sha3Bin_creatingEnv : Function.Injective creatingEnv.sha3Bin :=
  sampled_injective (by decide +kernel) (by decide +kernel)

/-- The address of the contract that is to be created. -/
def createdAddress : Bytes := bigBytes 0xe536720791a7dadbebdbcd8c8546fb0791a11901

/-- The third account has been sent one unit of money. -/
def creatingWorld (objects : AssocMap Bytes Ref) : World where
  heap ref :=
    if ref = 2 then { StateObject.new createdAddress with balance := 1 }
    else { StateObject.new [2 - UInt8.ofNat ref] with code := if ref = 0 then creatingCode else [] }
  next := 3
  state := ⟨.new (.str []), objects⟩

/-- The machine at the instruction. -/
abbrev creatingMachine (objects : AssocMap Bytes Ref) : Machine :=
  (runClosure (creatingWorld objects) [] [] ⟨1, 0, creatingCode, [], 200, 1⟩).after creatingEnv ∅ 3

/-- The address is vacant. -/
theorem create_fresh_iff_vacant :
    (creatingMachine (callingWorld []).state.stateObjects).world.Vacant ∅ createdAddress ∧
      ∃ msg, ((creatingMachine (callingWorld []).state.stateObjects).step creatingEnv ∅).control =
          .executing msg 0 ∧
        (creatingMachine (callingWorld []).state.stateObjects).world.Vacant ∅ msg.address := by
  have vacant : (creatingMachine (callingWorld []).state.stateObjects).world.Vacant ∅
      createdAddress := ⟨by decide +kernel, by decide +kernel⟩
  refine ⟨vacant, ((create_fresh_iff creatingEnv ∅ _ ⟨1, 0, creatingCode, [], 197, 1⟩
    ⟨6, [0, 0, 0], []⟩ 0 0 0 [] [] [] ⟨rfl, by decide +kernel, fun _ => rfl, rfl, by decide,
      by decide, by decide⟩).mpr ?_).2⟩
  have named : (creatingMachine (callingWorld []).state.stateObjects).candidate creatingEnv
      ⟨1, 0, creatingCode, [], 197, 1⟩ = createdAddress := by decide +kernel
  exact named ▸ vacant

/-- The address has been sent money before: the loop of `CREATE` never ends. -/
theorem create_search_diverges :
    Function.Injective creatingEnv.sha3Bin ∧
      ((creatingMachine (AList.insert createdAddress 2
        (callingWorld []).state.stateObjects)).step creatingEnv ∅).control = .searching ∧
      ∀ turns, ∃ last, searchAddress creatingEnv.sha3Bin ∅ (address [2]) 0 createdAddress turns 0
        (creatingMachine (AList.insert createdAddress 2
          (callingWorld []).state.stateObjects)).world = .going last := by
  have named : (creatingMachine (AList.insert createdAddress 2
      (callingWorld []).state.stateObjects)).candidate creatingEnv
        ⟨1, 0, creatingCode, [], 97, 1⟩ = createdAddress := by decide +kernel
  have searching : ((creatingMachine (AList.insert createdAddress 2
      (callingWorld []).state.stateObjects)).create creatingEnv ∅
        { (⟨1, 0, creatingCode, [], 97, 1⟩ : Closure) with gas := 97 } ⟨6, [], []⟩ 0 []).control =
      .searching := rfl
  exact ⟨sha3Bin_creatingEnv, rfl, named ▸ (searching_iff_going 97 _).mp searching⟩

end Machine

end Thelonious
