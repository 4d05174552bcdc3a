import Thelonious.State.World

/-!
# The balances a state holds

The worth of an address is the balance of the object the state has for it, or
else of the account stored in its trie; an object marked for deletion is worth
nothing.  Loading objects, copying the state and going back to a copy keep the
worth of every address, and changing an object matters only when it is the one
the state has for its address.
-/

namespace Thelonious

/-- An object marked for deletion is deleted by `State.Update`. -/
def StateObject.worth (object : StateObject) : Int :=
  if object.remove then 0 else object.balance

/-- The account stored in the trie of a state. -/
def Trie.account (db : Database) (trie : Trie) (addr : Bytes) : Option StateObject := do
  let data ← trie.read db addr
  if data.length = 0 then none else StateObject.fromBytes db addr data

/-- The finitely many addresses. -/
noncomputable def addresses : Finset Bytes :=
  have : Finite UInt8 := .of_injective UInt8.toFin fun _ _ same => UInt8.toFin_inj.mp same
  (List.finite_length_eq UInt8 20).toFinset

@[simp] theorem mem_addresses {addr : Bytes} : addr ∈ addresses ↔ addr.length = 20 := by
  simp [addresses]

theorem sum_update_addresses (worth : Bytes → Int) {addr : Bytes} (lengthEq : addr.length = 20)
    (amount : Int) :
    ∑ other ∈ addresses, Function.update worth addr amount other =
      ∑ other ∈ addresses, worth other + (amount - worth addr) := by
  have member : addr ∈ addresses := mem_addresses.mpr lengthEq
  rw [Finset.sum_update_of_mem member, Finset.sum_eq_add_sum_sdiff_singleton_of_mem member]
  ring

namespace State

variable {α : Type}

/-- The balance a state holds for an address. -/
def worthAt (db : Database) (objectOf : α → StateObject) (state : State α) (addr : Bytes) : Int :=
  match AList.lookup addr state.stateObjects with
  | some held => (objectOf held).worth
  | none => ((state.trie.account db addr).map StateObject.worth).getD 0

/-- The sum of the balances of all accounts. -/
noncomputable def total (db : Database) (objectOf : α → StateObject) (state : State α) : Int :=
  ∑ addr ∈ addresses, state.worthAt db objectOf addr

/-- Every entry of a copy is an object with that address. -/
structure SoundCopy (copied : State StateObject) : Prop where
  held {addr : Bytes} {object : StateObject} :
    AList.lookup addr copied.stateObjects = some object →
      object.address = addr ∧ addr.length = 20

variable {db : Database} {objectOf : α → StateObject} {state : State α} {addr : Bytes}

theorem worthAt_of_some {held : α} (found : AList.lookup addr state.stateObjects = some held) :
    state.worthAt db objectOf addr = (objectOf held).worth := by
  simp [worthAt, found]

theorem worthAt_of_none (absent : AList.lookup addr state.stateObjects = none) :
    state.worthAt db objectOf addr =
      ((state.trie.account db addr).map StateObject.worth).getD 0 := by
  simp [worthAt, absent]

theorem dlookup_eq_sum (worth : α → Int) (entries : List (Sigma fun _ : Bytes => α))
    (distinct : entries.NodupKeys) (addr : Bytes) :
    (entries.dlookup addr).elim 0 worth =
      (entries.map fun entry => if entry.1 = addr then worth entry.2 else 0).sum := by
  induction entries with
  | nil => rfl
  | cons entry entries induction =>
      obtain ⟨absent, distinct⟩ := List.nodupKeys_cons.mp distinct
      rw [List.map_cons, List.sum_cons, ← induction distinct]
      by_cases same : addr = entry.1
      · subst same
        rw [List.dlookup_cons_eq, List.dlookup_eq_none.mpr absent, if_pos rfl]
        simp
      · rw [List.dlookup_cons_ne _ _ same, if_neg (Ne.symm same), zero_add]

/-- With nothing in the trie, the accounts are the objects of the map. -/
theorem total_eq_sum (empty : ∀ addr, state.trie.account db addr = none)
    (lengths : ∀ entry ∈ state.stateObjects.entries, entry.1.length = 20) :
    state.total db objectOf =
      (state.stateObjects.entries.map fun entry => (objectOf entry.2).worth).sum := by
  have worths : ∀ addr, state.worthAt db objectOf addr =
      (state.stateObjects.entries.map fun entry =>
        if entry.1 = addr then (objectOf entry.2).worth else 0).sum := by
    intro addr
    rw [← dlookup_eq_sum (fun held => (objectOf held).worth) _ state.stateObjects.nodupKeys]
    cases found : AList.lookup addr state.stateObjects with
    | none =>
        rw [worthAt_of_none found, empty]
        exact congrArg (fun held => Option.elim held 0 _) found.symm
    | some held =>
        rw [worthAt_of_some found]
        exact congrArg (fun held => Option.elim held 0 fun held => (objectOf held).worth) found.symm
  rw [total, Finset.sum_congr rfl fun addr _ => worths addr]
  generalize state.stateObjects.entries = entries at lengths
  induction entries with
  | nil => simp
  | cons entry entries induction =>
      simp only [List.map_cons, List.sum_cons, Finset.sum_add_distrib]
      rw [induction fun other member => lengths other (List.mem_cons_of_mem _ member),
        Finset.sum_ite_eq, if_pos (mem_addresses.mpr (lengths entry List.mem_cons_self))]

end State

theorem Trie.account_of_root {db : Database} {trie : Trie} (empty : trie.root.len = 0)
    (blank : trie.root.asStr = []) (addr : Bytes) : trie.account db addr = none := by
  have read : trie.read db addr = some [] := by
    rw [Trie.read_eq_map]
    cases compactHexDecode addr with
    | nil => simp [Trie.getState, blank]
    | cons nibble rest => simp [Trie.getState, empty, blank]
  simp [Trie.account, read]

namespace World

/-- The balance the state holds for an address. -/
def worthAt (db : Database) (w : World) : Bytes → Int := w.state.worthAt db w.heap

noncomputable def total (db : Database) (w : World) : Int := w.state.total db w.heap

/-- The state has this object for its address. -/
def Holds (w : World) (ref : Ref) : Prop :=
  AList.lookup (w.heap ref).address w.state.stateObjects = some ref

/-- The object counts in the sum of the balances. -/
def Counts (w : World) (ref : Ref) : Prop := w.Holds ref ∧ (w.heap ref).remove = false

/-- An amount sent to the address reaches an account that counts. -/
def Accepts (w : World) (addr : Bytes) : Prop :=
  ∀ ref, AList.lookup (address addr) w.state.stateObjects = some ref →
    (w.heap ref).remove = false

instance (w : World) (ref : Ref) : Decidable (w.Holds ref) := by
  unfold Holds
  infer_instance

instance (w : World) (ref : Ref) : Decidable (w.Counts ref) := by
  unfold Counts
  infer_instance

instance (w : World) (addr : Bytes) : Decidable (w.Accepts addr) :=
  inferInstanceAs (Decidable (∀ ref ∈ AList.lookup (address addr) w.state.stateObjects,
    (w.heap ref).remove = false))

/-- Every entry of the map is an object with that address. -/
structure Sound (w : World) : Prop where
  held {addr : Bytes} {ref : Ref} :
    AList.lookup addr w.state.stateObjects = some ref →
      ref < w.next ∧ (w.heap ref).address = addr ∧ addr.length = 20

/-- `after` differs from `before` by objects loaded from the trie, or created for
addresses without an account. -/
structure Loads (db : Database) (before after : World) : Prop where
  sound : after.Sound
  next_le : before.next ≤ after.next
  heap_eq {ref : Ref} : ref < before.next → after.heap ref = before.heap ref
  kept {addr : Bytes} {ref : Ref} :
    AList.lookup addr before.state.stateObjects = some ref →
      AList.lookup addr after.state.stateObjects = some ref
  fresh {addr : Bytes} {ref : Ref} :
    AList.lookup addr after.state.stateObjects = some ref →
      AList.lookup addr before.state.stateObjects = some ref ∨
        (before.next ≤ ref ∧ (after.heap ref).remove = false)
  worthAt_eq (addr : Bytes) : after.worthAt db addr = before.worthAt db addr

variable {db : Database} {w : World} {addr : Bytes} {ref : Ref} {object : StateObject}
  {after : World}

theorem Sound.holds (sound : w.Sound) (found : AList.lookup addr w.state.stateObjects = some ref) :
    w.Holds ref := by
  unfold Holds
  rwa [(sound.held found).2.1]

/-! ### Loading -/

namespace Loads

theorem refl (sound : w.Sound) : Loads db w w where
  sound := sound
  next_le := le_rfl
  heap_eq _ := rfl
  kept found := found
  fresh found := .inl found
  worthAt_eq _ := rfl

variable {after : World}

theorem trans {middle : World} (first : Loads db w middle) (second : Loads db middle after) :
    Loads db w after where
  sound := second.sound
  next_le := first.next_le.trans second.next_le
  heap_eq below := (second.heap_eq (below.trans_le first.next_le)).trans (first.heap_eq below)
  kept found := second.kept (first.kept found)
  fresh found := by
    rcases second.fresh found with found | ⟨above, kept⟩
    · rw [second.heap_eq (first.sound.held found).1]
      exact first.fresh found
    · exact .inr ⟨first.next_le.trans above, kept⟩
  worthAt_eq addr := (second.worthAt_eq addr).trans (first.worthAt_eq addr)

theorem total_eq (loads : Loads db w after) : after.total db = w.total db :=
  Finset.sum_congr rfl fun addr _ => loads.worthAt_eq addr

theorem holds_iff (loads : Loads db w after) {ref : Ref} (below : ref < w.next) :
    after.Holds ref ↔ w.Holds ref := by
  unfold Holds
  rw [loads.heap_eq below]
  constructor
  · intro found
    rcases loads.fresh found with found | ⟨above, -⟩
    · exact found
    · exact absurd below above.not_gt
  · exact loads.kept

theorem counts_iff (loads : Loads db w after) {ref : Ref} (below : ref < w.next) :
    after.Counts ref ↔ w.Counts ref := by
  unfold Counts
  rw [loads.holds_iff below, loads.heap_eq below]

end Loads

theorem lookup_install (w : World) (addr : Bytes) (object : StateObject) (other : Bytes) :
    AList.lookup other (w.install addr object).state.stateObjects =
      if other = addr then some w.next else AList.lookup other w.state.stateObjects := by
  split
  · rename_i same
    subst same
    exact AList.lookup_insert _
  · rename_i different
    exact AList.lookup_insert_ne different

theorem heap_install_of_lt (below : ref < w.next) : (w.install addr object).heap ref = w.heap ref :=
  Function.update_of_ne below.ne _ _

@[simp] theorem heap_install_next (w : World) (addr : Bytes) (object : StateObject) :
    (w.install addr object).heap w.next = object :=
  Function.update_self _ _ _

theorem Sound.install (sound : w.Sound) (addressEq : object.address = addr)
    (lengthEq : addr.length = 20) : (w.install addr object).Sound where
  held {other ref} found := by
    rw [lookup_install] at found
    split at found
    · rename_i same
      cases found
      refine ⟨Nat.lt_succ_self _, ?_, same ▸ lengthEq⟩
      rw [heap_install_next, addressEq, same]
    · obtain ⟨below, heldAddress, heldLength⟩ := sound.held found
      refine ⟨below.trans (Nat.lt_succ_self _), ?_, heldLength⟩
      rw [heap_install_of_lt below, heldAddress]

theorem worthAt_install (sound : w.Sound) (addr : Bytes) (object : StateObject) :
    (w.install addr object).worthAt db = Function.update (w.worthAt db) addr object.worth := by
  funext other
  have installed := lookup_install w addr object other
  by_cases same : other = addr
  · subst same
    rw [if_pos rfl] at installed
    rw [Function.update_self, worthAt, State.worthAt_of_some installed, heap_install_next]
  · rw [if_neg same] at installed
    rw [Function.update_of_ne same]
    cases found : AList.lookup other w.state.stateObjects with
    | none =>
        rw [worthAt, worthAt, State.worthAt_of_none (installed.trans found),
          State.worthAt_of_none found]
        rfl
    | some ref =>
        rw [worthAt, worthAt, State.worthAt_of_some (installed.trans found),
          State.worthAt_of_some found, heap_install_of_lt (sound.held found).1]

theorem loads_install (sound : w.Sound) (addressEq : object.address = addr)
    (lengthEq : addr.length = 20) (absent : AList.lookup addr w.state.stateObjects = none)
    (kept : object.remove = false) (worthEq : object.worth = w.worthAt db addr) :
    Loads db w (w.install addr object) where
  sound := sound.install addressEq lengthEq
  next_le := Nat.le_succ _
  heap_eq := heap_install_of_lt
  kept {other ref} found := by
    have different : other ≠ addr := by
      rintro rfl
      simp [absent] at found
    rwa [lookup_install, if_neg different]
  fresh {other ref} found := by
    rw [lookup_install] at found
    split at found
    · cases found
      exact .inr ⟨le_rfl, by rw [heap_install_next, kept]⟩
    · exact .inl found
  worthAt_eq other := by
    rw [worthAt_install sound, worthEq, Function.update_eq_self]

theorem loads_trie (sound : w.Sound) {trie : Trie} (same : trie.read db = w.state.trie.read db) :
    Loads db w (w.setTrie trie) where
  sound := ⟨sound.held⟩
  next_le := le_rfl
  heap_eq _ := rfl
  kept found := found
  fresh found := .inl found
  worthAt_eq addr := by
    simp only [worthAt, setTrie, State.worthAt, Trie.account, same]

/-- What `GetStateObject` does to the world, and what it finds. -/
theorem loads_getStateObject (sound : w.Sound) {found : Option Ref}
    (got : w.getStateObject db addr = some (found, after)) :
    Loads db w after ∧
      AList.lookup (address addr) after.state.stateObjects = found ∧
      (found = none → after.worthAt db (address addr) = 0) := by
  cases lookupEq : AList.lookup (address addr) w.state.stateObjects with
  | some ref =>
      simp only [getStateObject, lookupEq, Option.some.injEq, Prod.mk.injEq] at got
      obtain ⟨rfl, rfl⟩ := got
      exact ⟨.refl sound, lookupEq, by simp⟩
  | none =>
      simp only [getStateObject, lookupEq] at got
      obtain ⟨⟨data, trie⟩, dataEq, got⟩ := Option.bind_eq_some_iff.mp got
      have same := Trie.read_of_get dataEq
      have reads := loads_trie sound same
      have readEq : trie.read db (address addr) = some data := by
        rw [same, Trie.read, dataEq]
        rfl
      have absent : AList.lookup (address addr) (w.setTrie trie).state.stateObjects = none :=
        lookupEq
      dsimp only at got
      split at got
      · rename_i empty
        cases got
        refine ⟨reads, absent, fun _ => ?_⟩
        rw [worthAt, State.worthAt_of_none absent]
        simp only [setTrie, Trie.account, readEq, Option.bind_eq_bind, Option.bind_some,
          if_pos empty]
        rfl
      · rename_i nonempty
        obtain ⟨object, objectEq, got⟩ := Option.bind_eq_some_iff.mp got
        cases got
        obtain ⟨addressEq, kept⟩ : object.address = address addr ∧ object.remove = false := by
          obtain ⟨decoder, -, made⟩ := Option.bind_eq_some_iff.mp objectEq
          cases made
          exact ⟨rfl, rfl⟩
        refine ⟨reads.trans
          (loads_install reads.sound addressEq (length_address addr) absent kept ?_), ?_, by simp⟩
        · rw [worthAt, State.worthAt_of_none absent]
          simp only [setTrie, Trie.account, readEq, Option.bind_eq_bind, Option.bind_some,
            if_neg nonempty, objectEq]
          rfl
        · rw [lookup_install, if_pos rfl]

theorem loads_getOrNewStateObject (sound : w.Sound)
    (got : w.getOrNewStateObject db addr = some (ref, after)) :
    Loads db w after ∧ AList.lookup (address addr) after.state.stateObjects = some ref := by
  obtain ⟨⟨found, middle⟩, foundEq, got⟩ := Option.bind_eq_some_iff.mp got
  obtain ⟨loads, lookupEq, worthless⟩ := loads_getStateObject sound foundEq
  cases found with
  | some held =>
      cases got
      exact ⟨loads, lookupEq⟩
  | none =>
      cases got
      have creates : Loads db middle (middle.install (address addr) (.new addr)) :=
        loads_install loads.sound rfl (length_address addr) lookupEq rfl (worthless rfl).symm
      exact ⟨loads.trans creates, (lookup_install _ _ _ _).trans (if_pos rfl)⟩

theorem counts_of_getOrNewStateObject (sound : w.Sound)
    (got : w.getOrNewStateObject db addr = some (ref, after)) :
    after.Counts ref ↔ w.Accepts addr := by
  obtain ⟨loads, lookupEq⟩ := loads_getOrNewStateObject sound got
  have holds := loads.sound.holds lookupEq
  constructor
  · rintro ⟨-, kept⟩ held heldEq
    have same : ref = held := Option.some.inj (lookupEq.symm.trans (loads.kept heldEq))
    rwa [← loads.heap_eq (sound.held heldEq).1, ← same]
  · intro accepts
    refine ⟨holds, ?_⟩
    rcases loads.fresh lookupEq with heldEq | ⟨-, kept⟩
    · rw [loads.heap_eq (sound.held heldEq).1]
      exact accepts ref heldEq
    · exact kept

/-! ### Changing an object -/

section Modify

variable {ref : Ref} {change : StateObject → StateObject}

@[simp] theorem heap_modify_self (w : World) (ref : Ref) (change : StateObject → StateObject) :
    (w.modify ref change).heap ref = change (w.heap ref) :=
  Function.update_self _ _ _

theorem heap_modify_of_ne {other : Ref} (different : other ≠ ref) :
    (w.modify ref change).heap other = w.heap other :=
  Function.update_of_ne different _ _

variable (addressEq : (change (w.heap ref)).address = (w.heap ref).address)

include addressEq

theorem address_modify (other : Ref) :
    ((w.modify ref change).heap other).address = (w.heap other).address := by
  by_cases same : other = ref
  · rw [same, heap_modify_self, addressEq]
  · rw [heap_modify_of_ne same]

theorem Sound.modify (sound : w.Sound) : (w.modify ref change).Sound where
  held found := by
    rw [address_modify addressEq]
    exact sound.held found

theorem holds_modify (other : Ref) : (w.modify ref change).Holds other ↔ w.Holds other := by
  unfold Holds
  rw [address_modify addressEq]
  rfl

theorem worthAt_modify (sound : w.Sound) :
    (w.modify ref change).worthAt db =
      if w.Holds ref then
        Function.update (w.worthAt db) (w.heap ref).address (change (w.heap ref)).worth
      else w.worthAt db := by
  funext addr
  cases found : AList.lookup addr w.state.stateObjects with
  | none =>
      have different : w.Holds ref → addr ≠ (w.heap ref).address := by
        rintro holds rfl
        exact absurd (holds.symm.trans found) (by simp)
      have unchanged : (w.modify ref change).worthAt db addr = w.worthAt db addr := by
        have sameLookup :
            AList.lookup addr (w.modify ref change).state.stateObjects = none := found
        rw [worthAt, worthAt, State.worthAt_of_none sameLookup, State.worthAt_of_none found]
        rfl
      split
      · rw [unchanged, Function.update_of_ne (different ‹_›)]
      · exact unchanged
  | some held =>
      have sameLookup :
          AList.lookup addr (w.modify ref change).state.stateObjects = some held := found
      rw [worthAt, State.worthAt_of_some sameLookup]
      have heldAddress := (sound.held found).2.1
      by_cases same : held = ref
      · subst same
        rw [if_pos (sound.holds found), heldAddress, Function.update_self, heap_modify_self]
      · rw [heap_modify_of_ne same]
        have unchanged : w.worthAt db addr = (w.heap held).worth := State.worthAt_of_some found
        split
        · rename_i holds
          have different : addr ≠ (w.heap ref).address := by
            rintro rfl
            exact same (Option.some.inj (found.symm.trans holds))
          rw [Function.update_of_ne different, unchanged]
        · rw [unchanged]

theorem total_modify (sound : w.Sound) :
    (w.modify ref change).total db =
      w.total db + if w.Holds ref then (change (w.heap ref)).worth - (w.heap ref).worth else 0 := by
  have worths : (w.modify ref change).worthAt db = _ := worthAt_modify addressEq sound
  have totalEq : (w.modify ref change).total db =
      ∑ addr ∈ addresses, (w.modify ref change).worthAt db addr := rfl
  rw [totalEq, worths]
  split
  · rename_i holds
    have worthEq : w.worthAt db (w.heap ref).address = (w.heap ref).worth :=
      State.worthAt_of_some holds
    rw [sum_update_addresses _ (sound.held holds).2.2, worthEq]
    rfl
  · rw [add_zero]
    rfl

end Modify

/-! ### Copies -/

theorem Sound.copy (sound : w.Sound) : w.copy.SoundCopy where
  held {addr object} found := by
    simp only [World.copy, AssocMap.lookup_mapValues, Option.map_eq_some_iff] at found
    obtain ⟨ref, found, rfl⟩ := found
    exact (sound.held found).2

theorem worthAt_copy (w : World) (addr : Bytes) :
    w.copy.worthAt db id addr = w.worthAt db addr := by
  have lookupEq : AList.lookup addr w.copy.stateObjects =
      (AList.lookup addr w.state.stateObjects).map fun ref => (w.heap ref).copy :=
    AssocMap.lookup_mapValues _ _ _
  cases found : AList.lookup addr w.state.stateObjects with
  | none =>
      rw [found] at lookupEq
      rw [worthAt, State.worthAt_of_none lookupEq, State.worthAt_of_none found, Trie.account,
        Trie.account]
      simp only [copy, Trie.read_copy]
  | some ref =>
      rw [found] at lookupEq
      rw [worthAt, State.worthAt_of_some lookupEq, State.worthAt_of_some found]
      rfl

theorem total_copy (w : World) : w.copy.total db id = w.total db :=
  Finset.sum_congr rfl fun addr _ => worthAt_copy w addr

/-- The outcome of giving fresh references to the entries of a map. -/
structure Installs (entries : List (Sigma fun _ : Bytes => StateObject)) (before after : World) :
    Prop where
  next_le : before.next ≤ after.next
  heap_eq {ref : Ref} : ref < before.next → after.heap ref = before.heap ref
  trie_eq : after.state.trie = before.state.trie
  installed {addr : Bytes} {object : StateObject} : entries.dlookup addr = some object →
    ∃ ref, AList.lookup addr after.state.stateObjects = some ref ∧ before.next ≤ ref ∧
      ref < after.next ∧ after.heap ref = object
  others {addr : Bytes} : entries.dlookup addr = none →
    AList.lookup addr after.state.stateObjects = AList.lookup addr before.state.stateObjects

theorem installs_foldl (entries : List (Sigma fun _ : Bytes => StateObject))
    (distinct : entries.NodupKeys) (w : World) :
    Installs entries w (entries.foldl (fun w entry => w.install entry.1 entry.2) w) := by
  induction entries generalizing w with
  | nil => exact ⟨le_rfl, fun _ => rfl, rfl, by simp, fun _ => rfl⟩
  | cons entry entries induction =>
      obtain ⟨absent, distinct⟩ := List.nodupKeys_cons.mp distinct
      have rest := induction distinct (w.install entry.1 entry.2)
      have above : w.next < (w.install entry.1 entry.2).next := Nat.lt_succ_self _
      refine ⟨above.le.trans rest.next_le, ?_, rest.trie_eq, ?_, ?_⟩
      · intro ref below
        rw [List.foldl_cons, rest.heap_eq (below.trans above), heap_install_of_lt below]
      · intro addr object found
        rw [List.foldl_cons]
        by_cases same : addr = entry.1
        · subst same
          rw [List.dlookup_cons_eq] at found
          cases found
          refine ⟨w.next, ?_, le_rfl, above.trans_le rest.next_le, ?_⟩
          · rw [rest.others (List.dlookup_eq_none.mpr absent), lookup_install, if_pos rfl]
          · rw [rest.heap_eq above, heap_install_next]
        · rw [List.dlookup_cons_ne _ _ same] at found
          obtain ⟨ref, lookupEq, aboveRef, belowRef, objectEq⟩ := rest.installed found
          exact ⟨ref, lookupEq, above.le.trans aboveRef, belowRef, objectEq⟩
      · intro addr notFound
        rw [List.foldl_cons]
        have different : addr ≠ entry.1 := by
          rintro rfl
          rw [List.dlookup_cons_eq] at notFound
          exact absurd notFound (by simp)
        rw [List.dlookup_cons_ne _ _ different] at notFound
        rw [rest.others notFound, lookup_install, if_neg different]

section Set

variable {copied : State StateObject}

theorem installs_set (w : World) (copied : State StateObject) :
    Installs copied.stateObjects.entries { w with state := ⟨copied.trie, ∅⟩ } (w.set copied) :=
  installs_foldl _ copied.stateObjects.nodupKeys _

theorem next_le_set (w : World) (copied : State StateObject) : w.next ≤ (w.set copied).next :=
  (installs_set w copied).next_le

theorem heap_set_of_lt {ref : Ref} (below : ref < w.next) :
    (w.set copied).heap ref = w.heap ref :=
  (installs_set w copied).heap_eq below

/-- The state has an object of the copy, under a fresh reference, or nothing. -/
theorem lookup_set_cases (w : World) (copied : State StateObject) (addr : Bytes) :
    (∃ ref object, AList.lookup addr (w.set copied).state.stateObjects = some ref ∧
        AList.lookup addr copied.stateObjects = some object ∧ w.next ≤ ref ∧
        ref < (w.set copied).next ∧ (w.set copied).heap ref = object) ∨
      (AList.lookup addr (w.set copied).state.stateObjects = none ∧
        AList.lookup addr copied.stateObjects = none) := by
  have sets := installs_set w copied
  cases found : AList.lookup addr copied.stateObjects with
  | none => exact .inr ⟨(sets.others found).trans (AList.lookup_empty _), rfl⟩
  | some object =>
      obtain ⟨ref, lookupEq, above, below, objectEq⟩ := sets.installed found
      exact .inl ⟨ref, object, lookupEq, rfl, above, below, objectEq⟩

theorem next_le_of_lookup_set {addr : Bytes} {ref : Ref}
    (found : AList.lookup addr (w.set copied).state.stateObjects = some ref) :
    w.next ≤ ref := by
  rcases lookup_set_cases w copied addr with ⟨held, -, heldEq, -, above, -⟩ | ⟨absent, -⟩
  · exact Option.some.inj (heldEq.symm.trans found) ▸ above
  · exact absurd (absent.symm.trans found) (by simp)

theorem Sound.set (sound : copied.SoundCopy) : (w.set copied).Sound where
  held {addr ref} found := by
    rcases lookup_set_cases w copied addr with
      ⟨held, object, heldEq, copiedEq, -, below, rfl⟩ | ⟨absent, -⟩
    · obtain rfl : held = ref := Option.some.inj (heldEq.symm.trans found)
      exact ⟨below, sound.held copiedEq⟩
    · exact absurd (absent.symm.trans found) (by simp)

theorem worthAt_set (w : World) (copied : State StateObject) (addr : Bytes) :
    (w.set copied).worthAt db addr = copied.worthAt db id addr := by
  rcases lookup_set_cases w copied addr with
    ⟨held, object, heldEq, copiedEq, -, -, rfl⟩ | ⟨absent, copiedEq⟩
  · rw [worthAt, State.worthAt_of_some heldEq, State.worthAt_of_some copiedEq]
    rfl
  · rw [worthAt, State.worthAt_of_none absent, State.worthAt_of_none copiedEq,
      (installs_set w copied).trie_eq]

theorem total_set (w : World) (copied : State StateObject) :
    (w.set copied).total db = copied.total db id :=
  Finset.sum_congr rfl fun addr _ => worthAt_set w copied addr

end Set

end World

end Thelonious
