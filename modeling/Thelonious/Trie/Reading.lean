import Thelonious.Trie.Stored

/-!
# Reading leaves a trie as it was

`Get` stores the nodes it reads in the cache.  What it returns depends only on
what the cache and the database have under each key, and that does not change by
reading.
-/

namespace Thelonious

/-- Two outcomes of a read that returned the same and left the same to be read. -/
def SameReading (db : Database) (source : Bytes → Option Value) :
    Option (Value × Cache) → Option (Value × Cache) → Prop :=
  Option.Rel fun left right =>
    left.1 = right.1 ∧ left.2.source db = source ∧ right.2.source db = source

namespace SameReading

variable {db : Database} {source : Bytes → Option Value} {cache other : Cache}
  {left right : Option (Value × Cache)}

theorem bind {afterLeft afterRight : Value × Cache → Option (Value × Cache)}
    (same : SameReading db source left right)
    (after : ∀ value leftCache rightCache, leftCache.source db = source →
      rightCache.source db = source →
      SameReading db source (afterLeft (value, leftCache)) (afterRight (value, rightCache))) :
    SameReading db source (left.bind afterLeft) (right.bind afterRight) := by
  cases same with
  | none => exact .none
  | some related =>
      rename_i left right
      obtain ⟨valueEq, leftSource, rightSource⟩ := related
      obtain ⟨value, leftCache⟩ := left
      obtain ⟨other, rightCache⟩ := right
      obtain rfl : value = other := valueEq
      exact after value leftCache rightCache leftSource rightSource

theorem map_fst_eq (same : SameReading db source left right) :
    left.map Prod.fst = right.map Prod.fst := by
  cases same with
  | none => rfl
  | some related => exact congrArg some related.1

theorem source_eq (same : SameReading db source left right) {value : Value}
    (leftEq : left = some (value, cache)) : cache.source db = source := by
  subst leftEq
  cases same with
  | some related => exact related.2.1

theorem get (cacheSource : cache.source db = source) (otherSource : other.source db = source)
    (key : Bytes) : SameReading db source (cache.get db key) (other.get db key) := by
  have absent : ∀ {cache : Cache}, cache.source db key = none → cache.get db key = none := by
    intro cache none
    cases lookupEq : cache.nodes.lookup key with
    | some node => simp [Cache.source, lookupEq] at none
    | none => simp_all [Cache.source, Cache.get]
  cases sourceEq : source key with
  | none =>
      rw [absent (cacheSource ▸ sourceEq), absent (otherSource ▸ sourceEq)]
      exact .none
  | some value =>
      obtain ⟨next, found⟩ := Cache.get_of_source (cacheSource ▸ sourceEq)
      obtain ⟨otherNext, otherFound⟩ := Cache.get_of_source (otherSource ▸ sourceEq)
      rw [found, otherFound]
      exact .some ⟨rfl, (Cache.source_get found).trans cacheSource,
        (Cache.source_get otherFound).trans otherSource⟩

theorem getNode (cacheSource : cache.source db = source) (otherSource : other.source db = source)
    (node : Value) :
    SameReading db source (Trie.getNode db cache node) (Trie.getNode db other node) := by
  unfold Trie.getNode
  split
  · exact .some ⟨rfl, cacheSource, otherSource⟩
  · split
    · exact .some ⟨rfl, cacheSource, otherSource⟩
    · split
      · cases newValueFromBytes node.asStr with
        | none => exact .none
        | some value => exact .some ⟨rfl, cacheSource, otherSource⟩
      · exact get cacheSource otherSource _

theorem getState (fuel : Nat) (cacheSource : cache.source db = source)
    (otherSource : other.source db = source) (node : Value) (key : List Nibble) :
    SameReading db source (Trie.getState db fuel cache node key)
      (Trie.getState db fuel other node key) := by
  induction fuel generalizing cache other node key with
  | zero => exact .none
  | succ fuel induction =>
      cases key with
      | nil => exact .some ⟨rfl, cacheSource, otherSource⟩
      | cons nibble rest =>
          simp only [Trie.getState]
          split
          · exact .some ⟨rfl, cacheSource, otherSource⟩
          · apply bind (getNode cacheSource otherSource node)
            intro currentNode leftCache rightCache leftSource rightSource
            dsimp only
            split
            · exact .some ⟨rfl, leftSource, rightSource⟩
            · split
              · cases compactDecode (currentNode.get 0).asStr with
                | none => exact .none
                | some path =>
                    simp only [Option.bind_eq_bind, Option.bind_some]
                    split
                    · exact induction leftSource rightSource _ _
                    · exact .some ⟨rfl, leftSource, rightSource⟩
              · split
                · exact induction leftSource rightSource _ _
                · exact .none

end SameReading

namespace Trie

variable {db : Database}

/-- The text a trie has under a key, if reading it does not panic. -/
def read (db : Database) (trie : Trie) (key : Bytes) : Option Bytes :=
  (trie.get db key).map Prod.fst

theorem read_eq_map (trie : Trie) (key : Bytes) :
    trie.read db key =
      ((getState db ((compactHexDecode key).length + 1) trie.cache trie.root
        (compactHexDecode key)).map Prod.fst).map Value.asStr := by
  simp only [read, get, Option.bind_eq_bind, Option.map_bind]
  cases getState db _ trie.cache trie.root _ <;> rfl

theorem read_congr {trie other : Trie} (rootEq : trie.root = other.root)
    (sourceEq : trie.cache.source db = other.cache.source db) (key : Bytes) :
    trie.read db key = other.read db key := by
  have same := SameReading.getState ((compactHexDecode key).length + 1) sourceEq rfl
    trie.root (compactHexDecode key)
  rw [read_eq_map, read_eq_map, ← rootEq, same.map_fst_eq]

theorem read_of_get {trie next : Trie} {key text : Bytes}
    (found : trie.get db key = some (text, next)) : next.read db = trie.read db := by
  obtain ⟨⟨value, cache⟩, stateEq, found⟩ := Option.bind_eq_some_iff.mp found
  obtain ⟨-, rfl⟩ := Prod.mk.inj (Option.some.inj found)
  have same : SameReading db (trie.cache.source db) _ _ :=
    .getState ((compactHexDecode key).length + 1) rfl rfl trie.root (compactHexDecode key)
  exact funext (read_congr rfl (same.source_eq stateEq))

@[simp] theorem read_copy (trie : Trie) : trie.copy.read db = trie.read db :=
  funext (read_congr rfl rfl)

end Trie

end Thelonious
