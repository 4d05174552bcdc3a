import Thelonious.Trie.Commitment
import Thelonious.Trie.Trie

/-!
# Trees kept by a cache over a database

A tree is stored when every node that its parent refers to by hash can be read
through the cache.  All the trie code does to a cache is reading a key and
putting a node; `Evolves` records such histories.  Since the hash separates the
nodes involved, nothing stored is lost on the way.
-/

namespace Thelonious

open Radix Radix.Patricia

/-- What can be read through a cache, under which key. -/
abbrev View := Cache → Bytes → Option Value

/-- What `Cache.Get` returns for a key. -/
def Cache.source (db : Database) (cache : Cache) (key : Bytes) : Option Value :=
  match cache.nodes.lookup key with
  | some node => some node.value
  | none => newValueFromBytes (db.get key)

/-- What is in the cache itself. -/
def Cache.memory (cache : Cache) (key : Bytes) : Option Value :=
  (cache.nodes.lookup key).map Node.value

/-- The code finds what the view shows, and goes on finding it. -/
class Reliable (sha3Bin : Bytes → Bytes) (db : Database) (view : View) : Prop where
  get_of_view {cache : Cache} {key : Bytes} {value : Value} :
    view cache key = some value → ∃ next, cache.get db key = some (value, next)
  view_get {cache next : Cache} {key other : Bytes} {value shown : Value} :
    cache.get db key = some (value, next) → view cache other = some shown →
      view next other = some shown
  view_putValue (cache : Cache) (value : Value) {key : Bytes} {shown : Value} (force : Bool) :
    key ≠ sha3Bin (encode value) → view cache key = some shown →
      view (cache.putValue sha3Bin value force).2 key = some shown
  view_putValue_self (cache : Cache) (value : Value) {force : Bool} :
    32 ≤ (encode value).length ∨ force →
      view (cache.putValue sha3Bin value force).2 (sha3Bin (encode value)) = some value

section Definitions

variable (sha3Bin : Bytes → Bytes) (reread : Bool)

/-- The node of the tree is found under its hash. -/
def Keeps (source : Bytes → Option Value) (tree : PathTree) : Prop :=
  ∃ value, source (sha3Bin (nodeItem sha3Bin tree).encode) = some value ∧
    value.Represents reread (nodeItem sha3Bin tree)

/-- Every node of the tree that is too large to be written inline is found. -/
def Stored (source : Bytes → Option Value) : PathTree → Prop
  | .empty => True
  | .value _ => True
  | .short path child =>
      (32 ≤ (nodeItem sha3Bin (.short path child)).encode.length →
        Keeps sha3Bin reread source (.short path child)) ∧ Stored source child
  | .full children =>
      (32 ≤ (nodeItem sha3Bin (.full children)).encode.length →
        Keeps sha3Bin reread source (.full children)) ∧ ∀ i, Stored source (children i)

/-- A reference by which the node of the tree is reached. -/
def Refers (source : Bytes → Option Value) (reference : Value) (tree : PathTree) : Prop :=
  reference.Represents reread (nodeItem sha3Bin tree) ∨
    (reference.Represents reread (.str (sha3Bin (nodeItem sha3Bin tree).encode)) ∧
      Keeps sha3Bin reread source tree)

/-- `value` is written for the tree inside its parent, and the tree is stored. -/
structure Held (source : Bytes → Option Value) (value : Value) (tree : PathTree) : Prop where
  represents : value.Represents reread (commit sha3Bin tree)
  stored : Stored sha3Bin reread source tree

/-- One access of the trie code to its cache. -/
inductive CacheStep (scope : Scope) (db : Database) : Cache → Cache → Prop
  | read {cache next : Cache} {value : Value} {tree : PathTree} (known : Known scope tree)
      (represents : value.Represents reread (nodeItem sha3Bin tree))
      (found : cache.get db (sha3Bin (nodeItem sha3Bin tree).encode) = some (value, next)) :
      CacheStep scope db cache next
  | put {cache : Cache} {value : Value} (force : Bool) {tree : PathTree}
      (known : Known scope tree)
      (represents : value.Represents reread (nodeItem sha3Bin tree)) :
      CacheStep scope db cache (cache.putValue sha3Bin value force).2

def Evolves (scope : Scope) (db : Database) : Cache → Cache → Prop :=
  Relation.ReflTransGen (CacheStep sha3Bin reread scope db)

/-- The outcome of an operation on the cache: a reference to a stored tree. -/
def Yields (scope : Scope) (db : Database) (view : View) (cache : Cache)
    (result : Option (Value × Cache))
    (tree : PathTree) : Prop :=
  ∃ reference next, result = some (reference, next) ∧
    Evolves sha3Bin reread scope db cache next ∧
    Held sha3Bin reread (view next) reference tree

end Definitions

section Access

variable {sha3Bin : Bytes → Bytes} {db : Database} {cache : Cache} {key : Bytes} {value : Value}

/-! ### Single accesses -/

theorem Cache.get_of_source (found : cache.source db key = some value) :
    ∃ next, cache.get db key = some (value, next) := by
  cases lookupEq : cache.nodes.lookup key with
  | some node =>
      have valueEq : node.value = value := by
        simpa [Cache.source, lookupEq] using found
      exact ⟨cache, by simp [Cache.get, lookupEq, valueEq]⟩
  | none =>
      have read : newValueFromBytes (db.get key) = some value := by
        simpa [Cache.source, lookupEq] using found
      exact ⟨{ cache with nodes := cache.nodes.insert key ⟨key, value, false⟩ },
        by simp [Cache.get, lookupEq, read]⟩

/-- Reading a key changes the cache only when the key is new to it. -/
theorem Cache.get_cases {next : Cache} (found : cache.get db key = some (value, next)) :
    next = cache ∨
      (cache.nodes.lookup key = none ∧ newValueFromBytes (db.get key) = some value ∧
        next = { cache with nodes := cache.nodes.insert key ⟨key, value, false⟩ }) := by
  cases lookupEq : cache.nodes.lookup key with
  | some node =>
      simp only [Cache.get, lookupEq, Option.some.injEq, Prod.mk.injEq] at found
      exact .inl found.2.symm
  | none =>
      simp only [Cache.get, lookupEq] at found
      obtain ⟨read, readEq, found⟩ := Option.bind_eq_some_iff.mp found
      cases found
      exact .inr ⟨rfl, readEq, rfl⟩

theorem Cache.source_get {next : Cache} (found : cache.get db key = some (value, next)) :
    next.source db = cache.source db := by
  rcases Cache.get_cases found with rfl | ⟨lookupEq, readEq, rfl⟩
  · rfl
  · funext other
    by_cases same : other = key
    · subst same
      simp [Cache.source, lookupEq, readEq]
    · simp [Cache.source, AList.lookup_insert_ne same]

theorem Cache.source_putValue (cache : Cache) (value : Value) (key : Bytes)
    (different : key ≠ sha3Bin (encode value)) (force : Bool) :
    (cache.putValue sha3Bin value force).2.source db key = cache.source db key := by
  unfold Cache.putValue
  dsimp only
  split
  · simp [Cache.source, AList.lookup_insert_ne different]
  · rfl

instance reliable_source : Reliable sha3Bin db (Cache.source db) where
  get_of_view := Cache.get_of_source
  view_get found shown := by rw [Cache.source_get found, shown]
  view_putValue cache value _ _ force different shown := by
    rw [Cache.source_putValue cache value _ different force, shown]
  view_putValue_self cache value _ hashed := by
    simp [Cache.putValue, if_pos hashed, Cache.source]

instance reliable_memory : Reliable sha3Bin db Cache.memory where
  get_of_view {cache key _} shown := by
    obtain ⟨node, lookupEq, rfl⟩ := Option.map_eq_some_iff.mp shown
    exact ⟨cache, by simp [Cache.get, lookupEq]⟩
  view_get {cache next key other _ _} found shown := by
    rcases Cache.get_cases found with rfl | ⟨lookupEq, -, rfl⟩
    · exact shown
    · have different : other ≠ key := by
        rintro rfl
        simp [Cache.memory, lookupEq] at shown
      simpa [Cache.memory, AList.lookup_insert_ne different] using shown
  view_putValue cache value _ _ force different shown := by
    unfold Cache.putValue
    dsimp only
    split
    · simpa [Cache.memory, AList.lookup_insert_ne different] using shown
    · exact shown
  view_putValue_self cache value _ hashed := by
    simp [Cache.putValue, if_pos hashed, Cache.memory]

end Access

section Histories

variable {sha3Bin : Bytes → Bytes} {reread : Bool} {scope : Scope} {db : Database}
variable {view : View} [Reliable sha3Bin db view]
variable (spec : Sha3Spec sha3Bin (nodeEncodings sha3Bin scope)) (ok : scope.Ok) {tree : PathTree}
  {cache next : Cache}

/-! ### Nothing is lost -/

include spec ok

theorem CacheStep.keeps (step : CacheStep sha3Bin reread scope db cache next)
    (known : Known scope tree) (keeps : Keeps sha3Bin reread (view cache) tree) :
    Keeps sha3Bin reread (view next) tree := by
  cases step with
  | read _ _ found =>
      obtain ⟨value, shown, represents⟩ := keeps
      exact ⟨value, Reliable.view_get sha3Bin found shown, represents⟩
  | put force otherKnown represents =>
      rename_i value other
      by_cases same : sha3Bin (nodeItem sha3Bin tree).encode = sha3Bin (encode value)
      · by_cases hashed : 32 ≤ (encode value).length ∨ force
        · -- the node put has the hash of the tree's node, so it is that node
          rw [represents.encode_eq] at same
          have nodeEq := nodeItem_eq_of_hash_eq spec ok known otherKnown same
          refine ⟨value, ?_, nodeEq ▸ represents⟩
          rw [same, ← represents.encode_eq]
          exact Reliable.view_putValue_self db cache value hashed
        · simpa [Cache.putValue, hashed] using keeps
      · obtain ⟨stored, shown, storedRepresents⟩ := keeps
        exact ⟨stored, Reliable.view_putValue db cache value force same shown,
          storedRepresents⟩

theorem Evolves.keeps (evolves : Evolves sha3Bin reread scope db cache next)
    (known : Known scope tree) (keeps : Keeps sha3Bin reread (view cache) tree) :
    Keeps sha3Bin reread (view next) tree := by
  induction evolves with
  | refl => exact keeps
  | tail _ step induction => exact step.keeps spec ok known induction

omit spec ok in
/-- A source that keeps all known nodes of another one stores the same trees. -/
theorem Stored.mono {source larger : Bytes → Option Value}
    (keeps : ∀ tree, Known scope tree → Keeps sha3Bin reread source tree →
      Keeps sha3Bin reread larger tree) (isChild : Child scope tree)
    (stored : Stored sha3Bin reread source tree) : Stored sha3Bin reread larger tree := by
  induction tree with
  | empty => trivial
  | value content => trivial
  | short path child induction =>
      have known : Known scope (.short path child) := by
        simpa [Child] using isChild
      exact ⟨fun large => keeps _ known (stored.1 large), induction known.child stored.2⟩
  | full children induction =>
      have known : Known scope (.full children) := by
        simpa [Child] using isChild
      exact ⟨fun large => keeps _ known (stored.1 large),
        fun symbol => induction symbol (known.slot symbol) (stored.2 symbol)⟩

theorem Evolves.stored (evolves : Evolves sha3Bin reread scope db cache next)
    (isChild : Child scope tree) (stored : Stored sha3Bin reread (view cache) tree) :
    Stored sha3Bin reread (view next) tree :=
  stored.mono (fun _ known => evolves.keeps spec ok known) isChild

theorem Evolves.held {value : Value} (evolves : Evolves sha3Bin reread scope db cache next)
    (isChild : Child scope tree) (held : Held sha3Bin reread (view cache) value tree) :
    Held sha3Bin reread (view next) value tree :=
  ⟨held.represents, evolves.stored spec ok isChild held.stored⟩

end Histories

/-! ### Following a reference -/

section References

variable {sha3Bin : Bytes → Bytes} {reread : Bool} {db : Database}
variable {view : View} [Reliable sha3Bin db view] {tree : PathTree} {source : Bytes → Option Value}

theorem Stored.keeps (canonical : Canonical 16 tree) (stored : Stored sha3Bin reread source tree)
    (large : 32 ≤ (nodeItem sha3Bin tree).encode.length) : Keeps sha3Bin reread source tree := by
  cases tree with
  | empty => exact canonical.elim
  | value content => exact canonical.elim
  | short path child => exact stored.1 large
  | full children => exact stored.1 large

theorem held_value (source : Bytes → Option Value) (content : Bytes) :
    Held sha3Bin reread source (.str content) (.value content) :=
  ⟨.of_str content, trivial⟩

theorem Held.refers {reference : Value} (held : Held sha3Bin reread source reference tree)
    (canonical : Canonical 16 tree) : Refers sha3Bin reread source reference tree := by
  have represents := held.represents
  rw [commit_canonical canonical, Item.ref] at represents
  split at represents
  · rename_i large
    exact .inr ⟨represents, held.stored.keeps canonical large⟩
  · exact .inl represents

private theorem represents_nodeItem_get {value : Value} (canonical : Canonical 16 tree)
    (represents : value.Represents reread (nodeItem sha3Bin tree)) :
    (value.get 0).isNil = false ∧ value.isNil = false ∧ value.len ≠ 0 := by
  refine ⟨?_, represents.isNil_eq, ?_⟩
  · cases tree with
    | empty => exact canonical.elim
    | value content => exact canonical.elim
    | short path child =>
        obtain ⟨values, rfl, represent⟩ := represents_list_iff.mp represents
        cases represent with
        | cons head _ => exact head.isNil_eq
    | full children =>
        obtain ⟨values, rfl, _, slots⟩ := represents_ofFn_iff.mp represents
        exact (slots 0).isNil_eq
  · cases tree with
    | empty => exact canonical.elim
    | value content => exact canonical.elim
    | short path child =>
        obtain ⟨values, rfl, represent⟩ := represents_list_iff.mp represents
        simp [represent.length_eq]
    | full children =>
        obtain ⟨values, rfl, length, _⟩ := represents_ofFn_iff.mp represents
        simp [length]

variable {hashed : Set Bytes} (spec : Sha3Spec sha3Bin hashed)
include spec

theorem Refers.nonempty {reference : Value} (refers : Refers sha3Bin reread source reference tree)
    (canonical : Canonical 16 tree) : ¬ (reference.isNil ∨ reference.len = 0) := by
  rcases refers with represents | ⟨represents, _⟩
  · obtain ⟨_, notNil, nonempty⟩ := represents_nodeItem_get canonical represents
    simp [notNil, nonempty]
  · simp [represents.isNil_eq, represents.len_eq, spec.length_eq]

variable (db) in
theorem getNode_of_refers {scope : Scope} {cache : Cache} {reference : Value}
    {tree : PathTree} (known : Known scope tree)
    (refers : Refers sha3Bin reread (view cache) reference tree) :
    ∃ node next, Trie.getNode db cache reference = some (node, next) ∧
      node.Represents reread (nodeItem sha3Bin tree) ∧
      Evolves sha3Bin reread scope db cache next := by
  unfold Trie.getNode
  rcases refers with represents | ⟨represents, node, found, nodeRepresents⟩
  · obtain ⟨notNil, _⟩ := represents_nodeItem_get known.canonical represents
    exact ⟨reference, cache, by simp [notNil], represents, .refl⟩
  · obtain ⟨next, got⟩ : ∃ next, cache.get db _ = some (node, next) :=
      Reliable.get_of_view sha3Bin found
    refine ⟨node, next, ?_, nodeRepresents, .single (.read known nodeRepresents got)⟩
    simp [represents.get_eq_nil, represents.asStr_eq, represents.asBytes_eq, spec.length_eq,
      Value.isNil, got]

end References

theorem Yields.after {sha3Bin : Bytes → Bytes} {reread : Bool} {scope : Scope}
    {db : Database} {view : View} {cache middle : Cache} {result : Option (Value × Cache)}
    {tree : PathTree} (evolves : Evolves sha3Bin reread scope db cache middle)
    (yields : Yields sha3Bin reread scope db view middle result tree) :
    Yields sha3Bin reread scope db view cache result tree := by
  obtain ⟨reference, next, resultEq, further, held⟩ := yields
  exact ⟨reference, next, resultEq, evolves.trans further, held⟩

/-! ### Putting a node -/

section Putting

variable {sha3Bin : Bytes → Bytes} {reread : Bool} {scope : Scope} {db : Database}
variable {view : View} [Reliable sha3Bin db view]
variable (spec : Sha3Spec sha3Bin (nodeEncodings sha3Bin scope)) (ok : scope.Ok)
include spec

variable (db view) in
theorem put_of_known (cache : Cache) {node : Value} {tree : PathTree}
    (known : Known scope tree) (represents : node.Represents reread (nodeItem sha3Bin tree)) :
    ∃ reference next, Trie.put sha3Bin cache node = (reference, next) ∧
      Evolves sha3Bin reread scope db cache next ∧
      reference.Represents reread (commit sha3Bin tree) ∧
      (32 ≤ (nodeItem sha3Bin tree).encode.length →
        Keeps sha3Bin reread (view next) tree) := by
  refine ⟨(Trie.put sha3Bin cache node).1, (Trie.put sha3Bin cache node).2, rfl,
    .single (.put false known represents), ?_, ?_⟩
  · rw [commit_canonical known.canonical, Item.ref, ← represents.encode_eq]
    by_cases large : 32 ≤ (encode node).length
    · simpa [Trie.put, Cache.putValue, large] using
        Value.Represents.of_bytes (spec.ne_nil (encode node))
    · simpa [Trie.put, Cache.putValue, large] using represents
  · intro large
    refine ⟨node, ?_, represents⟩
    rw [← represents.encode_eq] at large ⊢
    exact Reliable.view_putValue_self db cache node (.inl large)

include ok

theorem putShort_of_known {cache : Cache} {path : List Nibble} {value : Value}
    {child : PathTree} (known : Known scope (.short path child))
    (held : Held sha3Bin reread (view cache) value child) :
    Yields sha3Bin reread scope db view cache (Trie.putShort sha3Bin cache path value)
      (.short path child) := by
  have represents : (Value.list [.str (compactPath path), value]).Represents reread
      (nodeItem sha3Bin (.short path child)) :=
    represents_list_iff.mpr ⟨_, rfl, .cons (.of_str _) (.cons held.represents .nil)⟩
  obtain ⟨reference, next, putEq, evolves, referenceRepresents, keeps⟩ :=
    put_of_known db view spec cache known represents
  refine ⟨reference, next, ?_, evolves, referenceRepresents, keeps, ?_⟩
  · simp [Trie.putShort, compactEncode_eq known.canonical.path_ne_nil, putEq]
  · exact evolves.stored spec ok known.child held.stored

theorem putFull_of_known {cache : Cache} {slots : List Value} {children : Nibble → PathTree}
    (known : Known scope (.full children)) (length : slots.length = 17)
    (held : ∀ i : Nibble,
      Held sha3Bin reread (view cache) (slots.getD i .nil) (children i)) :
    Yields sha3Bin reread scope db view cache (some (Trie.put sha3Bin cache (.list slots)))
      (.full children) := by
  have represents : (Value.list slots).Represents reread
      (nodeItem sha3Bin (.full children)) :=
    represents_ofFn_iff.mpr ⟨slots, rfl, length, fun i => (held i).represents⟩
  obtain ⟨reference, next, putEq, evolves, referenceRepresents, keeps⟩ :=
    put_of_known db view spec cache known represents
  exact ⟨reference, next, by rw [putEq], evolves, referenceRepresents, keeps,
    fun i => evolves.stored spec ok (known.slot i) (held i).stored⟩

end Putting

end Thelonious
