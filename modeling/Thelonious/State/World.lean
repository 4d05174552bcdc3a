import Thelonious.State.StateObject
import Thelonious.Trie.Reading
import Thelonious.Util.Big

/-!
# The state objects as the code shares them

The map of a `State`, the closures of the virtual machine and the state
transition hold pointers to the same objects.  A `World` keeps the objects in a
heap; references that were handed out are below `next`.

Nothing points to the objects of a copy of the state until `Set` makes the copy
the state.  So `Copy` returns the objects by value, and `Set` hands out the
references.
-/

namespace Thelonious

abbrev Ref := Nat

namespace StateObject

/-- `NewStateObject` -/
def new (addr : Bytes) : StateObject :=
  { address := Thelonious.address addr, nonce := 0, balance := 0, code := [], initCode := [],
    trie := .new (.str []), storage := ∅, gasPool := 0, remove := false }

/-- `NewStateObjectFromBytes` with `RlpDecode`; it panics on malformed data. -/
def fromBytes (db : Database) (address data : Bytes) : Option StateObject := do
  let decoder ← newValueFromBytes data
  return { address := address, nonce := (decoder.get 0).asUint,
           balance := (decoder.get 1).asBigInt, code := db.get (decoder.get 3).asBytes,
           initCode := [], trie := .new (decoder.get 2), storage := ∅, gasPool := 0,
           remove := false }

/-- `Copy` -/
def copy (object : StateObject) : StateObject := { object with trie := object.trie.copy }

/-- `AddAmount` -/
def addAmount (amount : Int) (object : StateObject) : StateObject :=
  { object with balance := object.balance + amount }

/-- `SubAmount` -/
def subAmount (amount : Int) (object : StateObject) : StateObject :=
  { object with balance := object.balance - amount }

/-- `object.Code = code` -/
def setCode (code : Bytes) (object : StateObject) : StateObject := { object with code := code }

/-- `object.Nonce++` -/
def incrementNonce (object : StateObject) : StateObject :=
  { object with nonce := object.nonce + 1 }

/-- `MarkForDeletion` -/
def markForDeletion (object : StateObject) : StateObject := { object with remove := true }

/-- `GetStorage`: the value, and the object with the value cached. -/
def getStorage (db : Database) (object : StateObject) (location : Int) :
    Option (Value × StateObject) :=
  let key := leftPadBytes (bigBytes location) 32
  match AList.lookup key object.storage with
  | some value => some (value, object)
  | none => do
      let (text, trie) ← object.trie.get db key
      let value ← newValueFromBytes text
      let object := { object with trie := trie }
      if value.isNil then return (value, object)
      else return (value, { object with storage := AList.insert key value object.storage })

/-- `SetStorage` -/
def setStorage (location : Int) (value : Value) (object : StateObject) : StateObject :=
  { object with
    storage := AList.insert (leftPadBytes (bigBytes location) 32) value object.storage }

end StateObject

structure World where
  heap : Ref → StateObject
  next : Ref
  state : State Ref

namespace World

/-- The object behind a reference is changed. -/
def modify (w : World) (ref : Ref) (change : StateObject → StateObject) : World :=
  { w with heap := Function.update w.heap ref (change (w.heap ref)) }

/-- A new object is allocated and becomes the one the state has for an address. -/
def install (w : World) (addr : Bytes) (object : StateObject) : World where
  heap := Function.update w.heap w.next object
  next := w.next + 1
  state := { w.state with stateObjects := AList.insert addr w.next w.state.stateObjects }

/-- The trie of the state is replaced. -/
def setTrie (w : World) (trie : Trie) : World :=
  { w with state := { w.state with trie := trie } }

/-- `New` at a root. -/
def atRoot (root : Value) : World where
  heap := fun _ => .new []
  next := 0
  state := ⟨.new root, ∅⟩

/-- `GetStateObject`, nil when there is no account. -/
def getStateObject (db : Database) (w : World) (addr : Bytes) : Option (Option Ref × World) :=
  match AList.lookup (address addr) w.state.stateObjects with
  | some ref => some (some ref, w)
  | none => do
      let (data, trie) ← w.state.trie.get db (address addr)
      let w := w.setTrie trie
      if data.length = 0 then return (none, w)
      else do
        let object ← StateObject.fromBytes db (address addr) data
        return (some w.next, w.install (address addr) object)

/-- `NewStateObject`, which replaces an object the state may have. -/
def newStateObject (w : World) (addr : Bytes) : Ref × World :=
  (w.next, w.install (address addr) (.new addr))

/-- `GetOrNewStateObject` -/
def getOrNewStateObject (db : Database) (w : World) (addr : Bytes) : Option (Ref × World) := do
  let (found, w) ← w.getStateObject db addr
  match found with
  | some ref => return (ref, w)
  | none => return w.newStateObject addr

/-- `State.Copy` -/
def copy (w : World) : State StateObject :=
  ⟨w.state.trie.copy,
    AssocMap.mapValues (fun ref => (w.heap ref).copy) w.state.stateObjects⟩

/-- `State.Set`.  The objects of the copy are reached from now on; the ones the
state had stay where they are for those who hold a reference. -/
def set (w : World) (copied : State StateObject) : World :=
  copied.stateObjects.entries.foldl (fun w entry => w.install entry.1 entry.2)
    { w with state := ⟨copied.trie, ∅⟩ }

/-- The objects of the state, by value. -/
def objects (w : World) : State StateObject :=
  ⟨w.state.trie, AssocMap.mapValues w.heap w.state.stateObjects⟩

/-- The object that an updated state has for a reference of the state. -/
def updated (w : World) (state : State StateObject) (ref : Ref) : Option StateObject :=
  AList.lookup (w.heap ref).address state.stateObjects

/-- `State.Update`: the objects that stay are changed where they are. -/
def update (sha3Bin : Bytes → Bytes) (db : Database) (depth : Nat) (addresses : List Bytes)
    (slots : Bytes → StorageOrder) (w : World) : Option (Database × World) := do
  let (db, state) ← w.objects.update sha3Bin db depth addresses slots
  let visible := w.state.stateObjects.entries.map Sigma.snd
  return (db, {
    heap := fun ref => if ref ∈ visible then (w.updated state ref).getD (w.heap ref) else w.heap ref
    next := w.next
    state := ⟨state.trie,
      AssocMap.filterValues (fun ref => (w.updated state ref).isSome) w.state.stateObjects⟩ })

/-- `object.State.Sync` for the object at an address. -/
def syncObject (current : Database × World) (addr : Bytes) : Database × World :=
  match AList.lookup addr current.2.state.stateObjects with
  | none => current
  | some ref =>
      let (db, trie) := (current.2.heap ref).trie.sync current.1
      (db, current.2.modify ref fun object => { object with trie := trie })

/-- `State.Sync`, visiting the objects in the order of `addresses`. -/
def sync (db : Database) (addresses : List Bytes) (w : World) : Database × World :=
  let (db, w) := addresses.foldl syncObject (db, w)
  let (db, trie) := w.state.trie.sync db
  (db, { w with state := ⟨trie, ∅⟩ })

end World

end Thelonious
