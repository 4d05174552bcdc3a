import Thelonious.Vm.Balances
import Thelonious.Vm.Effects

/-!
# The nonce of an account

An account is followed through the steps of the machine.  Its nonce is counted up
when it creates a contract, and it is marked for deletion when it commits suicide;
no other step touches either.
-/

namespace Thelonious

/-- The object that a copy has for an address satisfies `P`; if `must` holds there is one. -/
structure State.Tracks (addr : Bytes) (P : UInt64 → Bool → Prop) (must : Prop)
    (copied : State StateObject) : Prop where
  held {object : StateObject} : AList.lookup addr copied.stateObjects = some object →
    P object.nonce object.remove
  there : must → ∃ object, AList.lookup addr copied.stateObjects = some object

namespace World

/-- The object that the state has for an address satisfies `P`; if `must` holds there is
one. -/
structure Tracks (addr : Bytes) (P : UInt64 → Bool → Prop) (must : Prop) (w : World) : Prop where
  held {ref : Ref} : AList.lookup addr w.state.stateObjects = some ref →
    ref < w.next ∧ P (w.heap ref).nonce (w.heap ref).remove
  there : must → ∃ ref, AList.lookup addr w.state.stateObjects = some ref

variable {addr : Bytes} {P : UInt64 → Bool → Prop} {must : Prop} {w after : World} {db : Database}

namespace Tracks

variable {other : Bytes} {ref : Ref}

/-- An object of the account is changed as `P` allows. -/
theorem modify (tracks : w.Tracks addr P must) {change : StateObject → StateObject}
    (allowed : AList.lookup addr w.state.stateObjects = some ref →
      P (change (w.heap ref)).nonce (change (w.heap ref)).remove) :
    (w.modify ref change).Tracks addr P must where
  held {other} found := by
    obtain ⟨below, holds⟩ := tracks.held found
    refine ⟨below, ?_⟩
    by_cases same : other = ref
    · subst same
      rw [heap_modify_self]
      exact allowed found
    · rwa [heap_modify_of_ne same]
  there := tracks.there

/-- A change that leaves the nonce and the mark alone. -/
theorem touch (tracks : w.Tracks addr P must) {change : StateObject → StateObject}
    (nonce : (change (w.heap ref)).nonce = (w.heap ref).nonce)
    (remove : (change (w.heap ref)).remove = (w.heap ref).remove) :
    (w.modify ref change).Tracks addr P must :=
  tracks.modify fun found => by
    rw [nonce, remove]
    exact (tracks.held found).2

theorem setTrie (tracks : w.Tracks addr P must) (trie : Trie) :
    (w.setTrie trie).Tracks addr P must :=
  ⟨tracks.held, tracks.there⟩

/-- An object is installed at an address that had none. -/
theorem install (tracks : w.Tracks addr P must) (fresh : ¬ must → ∀ nonce, P nonce false)
    (absent : AList.lookup other w.state.stateObjects = none) {object : StateObject}
    (unmarked : object.remove = false) : (w.install other object).Tracks addr P must where
  held {ref} found := by
    rw [lookup_install] at found
    split at found
    · rename_i same
      subst same
      cases found
      refine ⟨Nat.lt_succ_self _, ?_⟩
      rw [heap_install_next, unmarked]
      apply fresh
      intro holds
      obtain ⟨ref, there⟩ := tracks.there holds
      cases absent.symm.trans there
    · obtain ⟨below, holds⟩ := tracks.held found
      exact ⟨below.trans (Nat.lt_succ_self _), by rwa [heap_install_of_lt below]⟩
  there holds := by
    obtain ⟨ref, there⟩ := tracks.there holds
    have different : addr ≠ other := by
      rintro rfl
      cases absent.symm.trans there
    exact ⟨ref, by rwa [lookup_install, if_neg different]⟩

theorem install_of_ne (tracks : w.Tracks addr P must) (different : addr ≠ other)
    (object : StateObject) : (w.install other object).Tracks addr P must where
  held found := by
    rw [lookup_install, if_neg different] at found
    obtain ⟨below, holds⟩ := tracks.held found
    exact ⟨below.trans (Nat.lt_succ_self _), by rwa [heap_install_of_lt below]⟩
  there holds := by
    obtain ⟨ref, there⟩ := tracks.there holds
    exact ⟨ref, by rwa [lookup_install, if_neg different]⟩

theorem getStateObject (tracks : w.Tracks addr P must) (fresh : ¬ must → ∀ nonce, P nonce false)
    {found : Option Ref} (got : w.getStateObject db other = some (found, after)) :
    after.Tracks addr P must := by
  unfold World.getStateObject at got
  split at got
  · cases got
    exact tracks
  · rename_i absent
    obtain ⟨⟨data, trie⟩, -, got⟩ := Option.bind_eq_some_iff.mp got
    dsimp only at got
    split at got
    · cases got
      exact tracks.setTrie trie
    · obtain ⟨object, read, got⟩ := Option.bind_eq_some_iff.mp got
      cases got
      obtain ⟨decoder, -, read⟩ := Option.bind_eq_some_iff.mp read
      cases read
      exact (tracks.setTrie trie).install fresh absent rfl

theorem getOrNewStateObject (tracks : w.Tracks addr P must)
    (fresh : ¬ must → ∀ nonce, P nonce false)
    (got : w.getOrNewStateObject db other = some (ref, after)) : after.Tracks addr P must := by
  obtain ⟨⟨found, middle⟩, foundEq, got⟩ := Option.bind_eq_some_iff.mp got
  have loaded := tracks.getStateObject fresh foundEq
  cases found with
  | some held =>
      cases got
      exact loaded
  | none =>
      cases got
      exact loaded.install fresh (keeps_getStateObject foundEq).2 rfl

theorem copy (tracks : w.Tracks addr P must) : w.copy.Tracks addr P must := by
  have lookups : AList.lookup addr w.copy.stateObjects =
      (AList.lookup addr w.state.stateObjects).map fun ref => (w.heap ref).copy :=
    AssocMap.lookup_mapValues _ _ _
  constructor
  case held =>
    intro object found
    rw [lookups] at found
    obtain ⟨ref, held, rfl⟩ := Option.map_eq_some_iff.mp found
    exact (tracks.held held).2
  case there =>
    intro holds
    obtain ⟨ref, there⟩ := tracks.there holds
    exact ⟨_, by rw [lookups, there]; rfl⟩

theorem set {copied : State StateObject} (tracks : copied.Tracks addr P must) (w : World) :
    (w.set copied).Tracks addr P must := by
  rcases lookup_set_cases w copied addr with
    ⟨ref, object, found, copiedEq, -, below, objectEq⟩ | ⟨absent, copiedEq⟩
  · constructor
    case held =>
      intro other otherFound
      cases found.symm.trans otherFound
      rw [objectEq]
      exact ⟨below, tracks.held copiedEq⟩
    case there => exact fun _ => ⟨ref, found⟩
  · constructor
    case held =>
      intro other otherFound
      cases absent.symm.trans otherFound
    case there =>
      intro holds
      obtain ⟨object, there⟩ := tracks.there holds
      cases copiedEq.symm.trans there

end Tracks

/-- The object has been handed out, and is not the one the state has for the address. -/
def Foreign (addr : Bytes) (w : World) (ref : Ref) : Prop :=
  ref < w.next ∧ AList.lookup addr w.state.stateObjects ≠ some ref

theorem Foreign.keeps {ref : Ref} (foreign : Foreign addr w ref) (keeps : World.Keeps w after) :
    Foreign addr after ref := by
  refine ⟨foreign.1.trans_le keeps.next_le, fun found => ?_⟩
  rcases keeps.fresh found with old | ⟨above, -⟩
  · exact foreign.2 old
  · exact absurd foreign.1 above.not_gt

namespace Tracks

/-- Mild steps that do not count up the nonce of the account. -/
theorem mild {counting : Ref → Prop} (tracks : w.Tracks addr P must)
    (fresh : ¬ must → ∀ nonce, P nonce false) (mild : Mild db counting w after)
    (others : ∀ ref, counting ref → Foreign addr w ref) : after.Tracks addr P must := by
  induction mild with
  | refl => exact tracks
  | load _ got induction => exact induction.getStateObject fresh got
  | create _ got induction => exact induction.getOrNewStateObject fresh got
  | setCode _ ref code induction => exact induction.touch rfl rfl
  | incrementNonce mild counted induction =>
      exact induction.modify fun found => absurd found ((others _ counted).keeps mild.keeps).2
  | cache _ got induction =>
      obtain ⟨trie, storage, rfl⟩ := StateObject.getStorage_fields got
      exact induction.touch rfl rfl
  | setStorage _ ref location value induction => exact induction.touch rfl rfl

end Tracks

end World

namespace Machine

/-- The account does not create a contract or commit suicide now. -/
def Spares (addr : Bytes) (m : Machine) : Prop :=
  m.instruction = some .create ∨ m.instruction = some .suicide →
    ∀ ref, m.control.object = some ref → (m.world.heap ref).address ≠ addr

/-- The account is tracked in the state, and in the copies the machine may go back to. -/
structure Tracks (addr : Bytes) (P : UInt64 → Bool → Prop) (must : Prop) (m : Machine) : Prop where
  world : m.world.Tracks addr P must
  waiting {caller : Waiting} : caller ∈ m.waiting → caller.snapshot.Tracks addr P must

variable {addr : Bytes} {P : UInt64 → Bool → Prop} {must : Prop} {env : Env} {db : Database}
  {m after : Machine}

theorem Tracks.deed (tracks : m.Tracks addr P must) (fresh : ¬ must → ∀ nonce, P nonce false)
    (valid : m.Valid) (spares : m.Spares addr) (deed : Deed env db m after) :
    after.Tracks addr P must := by
  have other : ∀ ref, m.control.object = some ref →
      m.instruction = some .create ∨ m.instruction = some .suicide →
      World.Foreign addr m.world ref := by
    intro ref acting instruction
    refine ⟨valid.object acting, fun found => ?_⟩
    exact spares instruction ref acting (valid.sound.held found).2.1
  have creators : ∀ ref, m.Creating ref → World.Foreign addr m.world ref :=
    fun ref creating => other ref creating.2 (.inl creating.1)
  cases deed with
  | mild world waiting acting =>
      exact ⟨tracks.world.mild fresh world creators,
        fun member => tracks.waiting (waiting.subset member)⟩
  | send caller msg copied loaded world running control waiting snapshot =>
      have loadedTracks := tracks.world.mild fresh loaded creators
      constructor
      case world =>
        exact loadedTracks.mild fresh world fun ref creating =>
          (creators ref creating).keeps loaded.keeps
      case waiting =>
        intro sender member
        rw [waiting] at member
        rcases List.mem_cons.mp member with rfl | old
        · rw [snapshot]
          exact loadedTracks.copy
        · exact tracks.waiting old
  | transfer msg caller object loaded executing covered ordinary found world waiting acting =>
      have loadedTracks := tracks.world.getOrNewStateObject fresh found
      have moved : (transferred loaded caller object msg.value).Tracks addr P must :=
        (loadedTracks.touch rfl rfl).touch rfl rfl
      constructor
      case world =>
        refine moved.mild fresh world fun ref creating => ?_
        have foreign := (creators ref creating).keeps (World.keeps_getOrNewStateObject found).1
        exact foreign
      case waiting => exact fun member => tracks.waiting (waiting.subset member)
  | bequeath closure l beneficiary rest receiver loaded running suicide stack found world waiting
      acting =>
      have loadedTracks := tracks.world.getOrNewStateObject fresh found
      have instruction : m.instruction = some .suicide := by
        rw [Machine.instruction, running]
        exact suicide
      have foreign := (other closure.object (by rw [running]; rfl) (.inr instruction)).keeps
        (World.keeps_getOrNewStateObject found).1
      constructor
      case world =>
        rw [world, bequeathed]
        have given : (loaded.modify receiver
            (.addAmount (loaded.heap closure.object).balance)).Tracks addr P must :=
          loadedTracks.touch rfl rfl
        exact given.modify fun held => absurd held foreign.2
      case waiting => exact fun member => tracks.waiting (waiting ▸ member)
  | revert result caller returning failed waiting world running =>
      constructor
      case world =>
        rw [world]
        exact .set (tracks.waiting (waiting ▸ List.mem_cons_self)) _
      case waiting => exact fun member => tracks.waiting (waiting ▸ List.mem_cons_of_mem _ member)

end Machine

end Thelonious
