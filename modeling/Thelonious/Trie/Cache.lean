import Thelonious.Lib.AssocMap
import Thelonious.Util.Rlp

/-!
# Database and node cache

The database of the node is one map from byte strings to byte strings.  A trie
reads it through a `Cache`, which keeps the nodes put since the last `Commit`
marked dirty.  The hash is the parameter `sha3Bin`.
-/

namespace Thelonious

/-- `MemDatabase` -/
abbrev Database := AssocMap Bytes Bytes

namespace Database

/-- `Get`: a missing key gives the nil slice. -/
def get (db : Database) (key : Bytes) : Bytes :=
  (AList.lookup key db).getD []

/-- `Put` -/
def put (db : Database) (key value : Bytes) : Database :=
  AList.insert key value db

@[simp] theorem get_put_self (db : Database) (key value : Bytes) :
    (db.put key value).get key = value := by
  simp [get, put]

theorem get_put_of_ne (db : Database) {key other : Bytes} (value : Bytes)
    (different : other ≠ key) : (db.put key value).get other = db.get other := by
  simp [get, put, AList.lookup_insert_ne different]

end Database

structure Node where
  key : Bytes
  value : Value
  dirty : Bool

structure Cache where
  nodes : AssocMap Bytes Node
  isDirty : Bool

namespace Cache

/-- `NewCache` -/
def new : Cache := ⟨∅, false⟩

/-- `PutValue` -/
def putValue (sha3Bin : Bytes → Bytes) (cache : Cache) (v : Value) (force : Bool) :
    Value × Cache :=
  let enc := encode v
  if 32 ≤ enc.length ∨ force then
    let sha := sha3Bin enc
    (.bytes sha, ⟨cache.nodes.insert sha ⟨sha, v, true⟩, true⟩)
  else (v, cache)

/-- `Get`; it panics when the stored bytes do not decode. -/
def get (db : Database) (cache : Cache) (key : Bytes) : Option (Value × Cache) :=
  match cache.nodes.lookup key with
  | some node => some (node.value, cache)
  | none => do
      let value ← newValueFromBytes (db.get key)
      return (value, { cache with nodes := cache.nodes.insert key ⟨key, value, false⟩ })

/-- The database after the loop of `Commit` over the given nodes. -/
def flush (db : Database) (nodes : List (Sigma fun _ : Bytes => Node)) : Database :=
  nodes.foldl
    (fun db entry => if entry.2.dirty then db.put entry.1 (encode entry.2.value) else db) db

/-- `Commit` -/
def commit (db : Database) (cache : Cache) : Database × Cache :=
  if cache.isDirty then
    let nodes := AssocMap.mapValues (fun node => { node with dirty := false }) cache.nodes
    (flush db cache.nodes.entries,
      ⟨if 200 < nodes.entries.length then ∅ else nodes, false⟩)
  else (db, cache)

/-- `Undo` -/
def undo (cache : Cache) : Cache :=
  ⟨AssocMap.filterValues (fun node => !node.dirty) cache.nodes, false⟩

/-- Distinct keys are written independently of each other. -/
theorem get_flush (db : Database) (nodes : List (Sigma fun _ : Bytes => Node))
    (distinct : nodes.NodupKeys) (key : Bytes) :
    (flush db nodes).get key =
      ((nodes.dlookup key).filter Node.dirty).elim (db.get key)
        (fun node => encode node.value) := by
  induction nodes generalizing db with
  | nil => rfl
  | cons entry nodes induction =>
      obtain ⟨fresh, distinct⟩ := List.nodupKeys_cons.mp distinct
      have rest := induction
        (if entry.2.dirty then db.put entry.1 (encode entry.2.value) else db) distinct
      by_cases same : key = entry.1
      · subst same
        rw [List.dlookup_eq_none.mpr fresh] at rest
        rw [flush, List.foldl_cons, List.dlookup_cons_eq]
        refine rest.trans ?_
        cases dirtyEq : entry.2.dirty
        · simp [Option.filter, dirtyEq]
        · simp [Option.filter, dirtyEq]
      · rw [flush, List.foldl_cons, List.dlookup_cons_ne _ _ same]
        refine rest.trans ?_
        split
        · rw [Database.get_put_of_ne _ _ same]
        · rfl

end Cache

end Thelonious
