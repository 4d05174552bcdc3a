import Thelonious.State.Ledger

/-!
# What `Update` does to the objects

`State.Update` changes the tries of the objects and drops those that are marked for
deletion.  Everything else about the objects stays as it is.
-/

namespace Thelonious

namespace State

/-- The objects are those of another state, but for their tries; only objects that are
marked for deletion may be missing. -/
structure Refreshes (before after : State StateObject) : Prop where
  known {addr : Bytes} {object : StateObject} :
    AList.lookup addr after.stateObjects = some object →
      ∃ old trie, AList.lookup addr before.stateObjects = some old ∧
        object = { old with trie := trie }
  kept {addr : Bytes} {object : StateObject} :
    AList.lookup addr before.stateObjects = some object → object.remove = false →
      ∃ trie, AList.lookup addr after.stateObjects = some { object with trie := trie }

variable {sha3Bin : Bytes → Bytes} {before state : State StateObject}

theorem Refreshes.refl (state : State StateObject) : Refreshes state state where
  known found := ⟨_, _, found, rfl⟩
  kept found _ := ⟨_, found⟩

theorem Refreshes.erase (refreshes : Refreshes before state) (trie : Trie) {addr : Bytes}
    {object : StateObject} (found : AList.lookup addr state.stateObjects = some object)
    (removed : object.remove = true) :
    Refreshes before ⟨trie, AList.erase addr state.stateObjects⟩ where
  known {other _} held := by
    have different : other ≠ addr := by
      rintro rfl
      rw [AList.lookup_erase] at held
      cases held
    rw [AList.lookup_erase_ne different] at held
    exact refreshes.known held
  kept {other old} held stays := by
    obtain ⟨oldTrie, current⟩ := refreshes.kept held stays
    have different : other ≠ addr := by
      rintro rfl
      rw [found] at current
      cases current
      cases removed.symm.trans stays
    exact ⟨oldTrie, by rwa [AList.lookup_erase_ne different]⟩

theorem Refreshes.insert (refreshes : Refreshes before state) (trie slots : Trie) {addr : Bytes}
    {object : StateObject} (found : AList.lookup addr state.stateObjects = some object) :
    Refreshes before
      ⟨trie, AList.insert addr { object with trie := slots } state.stateObjects⟩ where
  known {other _} held := by
    by_cases same : other = addr
    · subst same
      rw [AList.lookup_insert] at held
      cases held
      obtain ⟨old, oldTrie, oldFound, rfl⟩ := refreshes.known found
      exact ⟨old, slots, oldFound, rfl⟩
    · rw [AList.lookup_insert_ne same] at held
      exact refreshes.known held
  kept {other old} held stays := by
    obtain ⟨oldTrie, current⟩ := refreshes.kept held stays
    by_cases same : other = addr
    · subst same
      rw [found] at current
      cases current
      exact ⟨slots, AList.lookup_insert _⟩
    · exact ⟨oldTrie, by rwa [AList.lookup_insert_ne same]⟩

theorem refreshes_updateEntry {depth : Nat} {slots : Bytes → StorageOrder} {db nextDb : Database}
    {next : State StateObject} {addr : Bytes} (sound : before.SoundCopy)
    (refreshes : Refreshes before state)
    (updated : updateEntry sha3Bin depth slots (db, state) addr = some (nextDb, next)) :
    Refreshes before next := by
  simp only [updateEntry] at updated
  split at updated
  · cases updated
    exact refreshes
  · rename_i object found
    split at updated
    · rename_i removed
      obtain ⟨deleted, deletedEq, updated⟩ := Option.bind_eq_some_iff.mp updated
      cases updated
      obtain ⟨trie, -, deletedEq⟩ := Option.bind_eq_some_iff.mp deletedEq
      cases deletedEq
      obtain ⟨old, oldTrie, oldFound, rfl⟩ := refreshes.known found
      have addressEq : old.address = addr := (sound.held oldFound).1
      dsimp only
      rw [addressEq]
      exact refreshes.erase trie found removed
    · obtain ⟨synced, syncedEq, updated⟩ := Option.bind_eq_some_iff.mp updated
      obtain ⟨slotTrie, -, syncedEq⟩ := Option.bind_eq_some_iff.mp syncedEq
      obtain ⟨copiedTrie, -, syncedEq⟩ := Option.bind_eq_some_iff.mp syncedEq
      cases syncedEq
      obtain ⟨trie, -, updated⟩ := Option.bind_eq_some_iff.mp updated
      cases updated
      exact refreshes.insert trie copiedTrie found

theorem refreshes_update {depth : Nat} {addresses : List Bytes} {slots : Bytes → StorageOrder}
    {db nextDb : Database} {next : State StateObject} (sound : state.SoundCopy)
    (updated : state.update sha3Bin db depth addresses slots = some (nextDb, next)) :
    Refreshes state next := by
  have visits : ∀ (addresses : List Bytes) (current last : Database × State StateObject),
      Refreshes state current.2 →
      addresses.foldlM (updateEntry sha3Bin depth slots) current = some last →
      Refreshes state last.2 := by
    intro addresses
    induction addresses with
    | nil =>
        intro current last refreshes visited
        cases visited
        exact refreshes
    | cons addr addresses induction =>
        intro current last refreshes visited
        obtain ⟨middle, middleEq, visited⟩ := Option.bind_eq_some_iff.mp visited
        exact induction middle last (refreshes_updateEntry sound refreshes middleEq) visited
  obtain ⟨⟨lastDb, last⟩, visited, updated⟩ := Option.bind_eq_some_iff.mp updated
  obtain ⟨trie, -, updated⟩ := Option.bind_eq_some_iff.mp updated
  cases updated
  have refreshes := visits addresses (db, state) _ (.refl state) visited
  exact ⟨refreshes.known, refreshes.kept⟩

end State

namespace World

variable {w after : World} {sha3Bin : Bytes → Bytes} {db nextDb : Database} {depth : Nat}
  {addresses : List Bytes} {slots : Bytes → StorageOrder}

theorem Sound.objects (sound : w.Sound) : w.objects.SoundCopy where
  held found := by
    rw [World.objects, AssocMap.lookup_mapValues] at found
    obtain ⟨ref, lookupEq, rfl⟩ := Option.map_eq_some_iff.mp found
    exact (sound.held lookupEq).2

/-- The objects of the updated state are those of the state, but for their tries. -/
structure Refreshes (w after : World) : Prop where
  next_eq : after.next = w.next
  known {addr : Bytes} {ref : Ref} : AList.lookup addr after.state.stateObjects = some ref →
    AList.lookup addr w.state.stateObjects = some ref ∧
      ∃ trie, after.heap ref = { w.heap ref with trie := trie }
  kept {addr : Bytes} {ref : Ref} : AList.lookup addr w.state.stateObjects = some ref →
    (w.heap ref).remove = false → AList.lookup addr after.state.stateObjects = some ref

theorem refreshes_update (sound : w.Sound)
    (updated : w.update sha3Bin db depth addresses slots = some (nextDb, after)) :
    Refreshes w after := by
  obtain ⟨⟨lastDb, state⟩, stateEq, updated⟩ := Option.bind_eq_some_iff.mp updated
  cases updated
  have refreshes := State.refreshes_update sound.objects stateEq
  have lookups : ∀ addr, AList.lookup addr w.objects.stateObjects =
      (AList.lookup addr w.state.stateObjects).map w.heap := by
    intro addr
    rw [World.objects, AssocMap.lookup_mapValues]
  constructor
  case next_eq => rfl
  case known =>
    intro addr ref found
    simp only [AssocMap.lookup_filterValues, Option.filter_eq_some_iff] at found
    obtain ⟨found, present⟩ := found
    obtain ⟨object, objectEq⟩ := Option.isSome_iff_exists.mp present
    refine ⟨found, ?_⟩
    have visible : ref ∈ w.state.stateObjects.entries.map Sigma.snd :=
      List.mem_map.mpr ⟨⟨addr, ref⟩, AList.mem_lookup_iff.mp found, rfl⟩
    simp only [if_pos visible, objectEq, Option.getD_some]
    rw [World.updated, (sound.held found).2.1] at objectEq
    obtain ⟨old, trie, oldFound, rfl⟩ := refreshes.known objectEq
    rw [lookups, found] at oldFound
    cases oldFound
    exact ⟨trie, rfl⟩
  case kept =>
    intro addr ref found stays
    simp only [AssocMap.lookup_filterValues, Option.filter_eq_some_iff]
    refine ⟨found, ?_⟩
    have held : AList.lookup addr w.objects.stateObjects = some (w.heap ref) := by
      rw [lookups, found]
      rfl
    obtain ⟨trie, current⟩ := refreshes.kept held stays
    rw [World.updated, (sound.held found).2.1, current]
    rfl

theorem Refreshes.sound (refreshes : Refreshes w after) (sound : w.Sound) : after.Sound where
  held found := by
    obtain ⟨old, trie, heapEq⟩ := refreshes.known found
    obtain ⟨below, addressEq, lengthEq⟩ := sound.held old
    refine ⟨refreshes.next_eq ▸ below, ?_, lengthEq⟩
    rw [heapEq]
    exact addressEq

end World

end Thelonious
