import Thelonious.Trie.Insertion

/-!
# Operations of a trie

`Stands` relates a trie to the tree it stands for.  `Update` and `Get` are
correct with respect to it.
-/

namespace Thelonious

open Radix Radix.Patricia

/-- A Go string, or byte slice: it fits the address space. -/
abbrev GoString := {text : Bytes // text.length < 2 ^ 48}

variable (sha3Bin : Bytes → Bytes) (reread : Bool) (scope : Scope)

/-- The trie, read through the view, stands for the tree. -/
structure Stands (view : View) (trie : Trie) (tree : PathTree) : Prop where
  root : trie.root.Represents reread (rootItem sha3Bin tree)
  rooted : Rooted 16 tree
  holds : ∀ key value, Terminated 16 key → tree.get key = some value → (key, value) ∈ scope.pairs
  occurs : Canonical 16 tree → scope.Occurs tree
  keeps : Canonical 16 tree → Keeps sha3Bin reread (view trie.cache) tree
  stored : Stored sha3Bin reread (view trie.cache) tree

variable {sha3Bin reread scope} {db : Database} {view : View} [Reliable sha3Bin db view]
  {trie : Trie} {tree : PathTree}

theorem Stands.known (stands : Stands sha3Bin reread scope view trie tree)
    (canonical : Canonical 16 tree) : Known scope tree :=
  ⟨canonical, ⟨[], stands.holds⟩, stands.occurs canonical⟩

theorem Stands.empty_or_known (stands : Stands sha3Bin reread scope view trie tree) :
    tree = .empty ∨ Known scope tree := by
  rcases stands.rooted with isEmpty | canonical
  · exact .inl isEmpty
  · exact .inr (stands.known canonical)

theorem Stands.points (stands : Stands sha3Bin reread scope view trie tree) :
    Points sha3Bin reread scope (view trie.cache) trie.root tree := by
  rcases stands.rooted with rfl | canonical
  · exact .inl ⟨rfl, stands.root⟩
  · refine .inr ⟨stands.known canonical, .inr ⟨?_, stands.keeps canonical⟩, stands.stored⟩
    rw [← rootItem_canonical canonical]
    exact stands.root

theorem Stands.root_cases {hashed : Set Bytes} (spec : Sha3Spec sha3Bin hashed)
    (stands : Stands sha3Bin reread scope view trie tree) :
    (∃ text, trie.root = .str text) ∨ ∃ data, trie.root = .bytes data := by
  have represents := stands.root
  have item : ∃ data, rootItem sha3Bin tree = .str data ∧ data.length ≠ 1 := by
    rcases stands.rooted with rfl | canonical
    · exact ⟨[], rfl, by simp⟩
    · exact ⟨_, rootItem_canonical canonical, by simp [spec.length_eq]⟩
  obtain ⟨data, itemEq, length⟩ := item
  rw [itemEq] at represents
  rcases represents.str_cases with isStr | isBytes | ⟨single, _, rfl, _⟩
  · exact .inl ⟨_, isStr⟩
  · exact .inr ⟨_, isBytes⟩
  · exact (length rfl).elim

/-- Trees that hold byte strings only are determined by what these map to. -/
theorem Stands.eq_of_get_eq {other : Trie} {otherView : View} {otherTree : PathTree}
    (stands : Stands sha3Bin reread scope view trie tree)
    (otherStands : Stands sha3Bin reread scope otherView other otherTree)
    (keys : ∀ pair ∈ scope.pairs, ∃ text, pair.1 = compactHexDecode text)
    (same : ∀ text, tree.get (compactHexDecode text) = otherTree.get (compactHexDecode text)) :
    tree = otherTree := by
  refine Rooted.eq_of_sameContent stands.rooted otherStands.rooted fun key terminated => ?_
  by_cases isText : ∃ text, key = compactHexDecode text
  · obtain ⟨text, rfl⟩ := isText
    exact same text
  · have absent : ∀ value, tree.get key ≠ some value := fun value found =>
      isText (keys _ (stands.holds key value terminated found))
    have otherAbsent : ∀ value, otherTree.get key ≠ some value := fun value found =>
      isText (keys _ (otherStands.holds key value terminated found))
    rw [Option.eq_none_iff_forall_ne_some.mpr absent,
      Option.eq_none_iff_forall_ne_some.mpr otherAbsent]

theorem stands_new (sha3Bin : Bytes → Bytes) (reread : Bool) (scope : Scope)
    (view : View) : Stands sha3Bin reread scope view (.new (.str [])) .empty where
  root := .of_str []
  rooted := .empty
  holds := fun _ _ _ found => by cases found
  occurs := fun canonical => canonical.elim
  keeps := fun canonical => canonical.elim
  stored := trivial

/-- A trie with the same root that keeps as much stands for the same tree. -/
theorem Stands.transfer {other : Trie} {otherView : View}
    (stands : Stands sha3Bin reread scope view trie tree) (rootEq : other.root = trie.root)
    (keeps : ∀ tree, Known scope tree → Keeps sha3Bin reread (view trie.cache) tree →
      Keeps sha3Bin reread (otherView other.cache) tree) :
    Stands sha3Bin reread scope otherView other tree where
  root := rootEq ▸ stands.root
  rooted := stands.rooted
  holds := stands.holds
  occurs := stands.occurs
  keeps := fun canonical => keeps tree (stands.known canonical) (stands.keeps canonical)
  stored := by
    rcases stands.rooted with rfl | canonical
    · trivial
    · exact stands.stored.mono keeps (.inr (.inl (stands.known canonical)))

section Steps

variable (spec : Sha3Spec sha3Bin (nodeEncodings sha3Bin scope)) (ok : scope.Ok) {tree : PathTree}
  {trie : Trie}
include spec ok

theorem Evolves.stands {cache : Cache} (evolves : Evolves sha3Bin reread scope db trie.cache cache)
    (stands : Stands sha3Bin reread scope view trie tree) :
    Stands sha3Bin reread scope view { trie with cache := cache } tree :=
  stands.transfer rfl fun _ known => evolves.keeps spec ok known

variable (db) in
theorem Stands.get (stands : Stands sha3Bin reread scope view trie tree) (key : Bytes) :
    ∃ cache, trie.get db key =
        some ((tree.get (compactHexDecode key)).getD [], { trie with cache := cache }) ∧
      Evolves sha3Bin reread scope db trie.cache cache := by
  obtain ⟨value, cache, read, valueEq, evolves⟩ :=
    getState_eq_get db spec ok (Nat.lt_succ_self _) (terminated_compactHexDecode key)
      stands.points
  exact ⟨cache, by simp [Trie.get, read, valueEq], evolves⟩

variable (db) in
omit ok in
/-- The switch on the type of the new root hashes what is not hashed yet. -/
theorem setRoot_of_held (trie : Trie) {cache : Cache} {reference : Value} (known : Known scope tree)
    (held : Held sha3Bin reread (view cache) reference tree) :
    (trie.setRoot sha3Bin reference cache).prevRoot = trie.prevRoot ∧
      Evolves sha3Bin reread scope db cache (trie.setRoot sha3Bin reference cache).cache ∧
      (trie.setRoot sha3Bin reference cache).root.Represents reread
        (.str (sha3Bin (nodeItem sha3Bin tree).encode)) ∧
      Keeps sha3Bin reread (view (trie.setRoot sha3Bin reference cache).cache) tree := by
  rcases held.refers known.canonical with represents | ⟨represents, keeps⟩
  · obtain ⟨items, isList⟩ := nodeItem_isList sha3Bin known.canonical
    obtain ⟨values, rfl, _⟩ := represents_list_iff.mp (isList ▸ represents)
    refine ⟨rfl, .single (.put true known represents), ?_, ?_⟩
    · rw [← represents.encode_eq]
      simpa [Trie.setRoot, Cache.putValue] using
        Value.Represents.of_bytes (spec.ne_nil (encode (.list values)))
    · refine ⟨.list values, ?_, represents⟩
      rw [← represents.encode_eq]
      exact Reliable.view_putValue_self db cache (.list values) (.inr rfl)
  · have length := represents.len_eq
    rw [spec.length_eq] at length
    cases reference with
    | str text => exact ⟨rfl, .refl, represents, keeps⟩
    | bytes data => exact ⟨rfl, .refl, represents, keeps⟩
    | byte single => cases length
    | _ => simp [Value.Represents, Value.Plain, Value.content] at represents

variable (db) in
theorem Held.stands_setRoot (trie : Trie) {cache : Cache} {reference : Value}
    {tree : PathTree} (canonical : Canonical 16 tree)
    (holds : ∀ key value, Terminated 16 key → tree.get key = some value →
      (key, value) ∈ scope.pairs)
    (occurs : scope.Occurs tree) (held : Held sha3Bin reread (view cache) reference tree) :
    Stands sha3Bin reread scope view (trie.setRoot sha3Bin reference cache) tree ∧
      Evolves sha3Bin reread scope db cache (trie.setRoot sha3Bin reference cache).cache ∧
      (trie.setRoot sha3Bin reference cache).prevRoot = trie.prevRoot := by
  have known : Known scope tree := ⟨canonical, ⟨[], holds⟩, occurs⟩
  obtain ⟨prevEq, further, root, keeps⟩ := setRoot_of_held db spec trie known held
  refine ⟨?_, further, prevEq⟩
  exact {
    root := by rwa [rootItem_canonical canonical]
    rooted := canonical.rooted
    holds := holds
    occurs := fun _ => occurs
    keeps := fun _ => keeps
    stored := further.stored spec ok (.inr (.inl known)) held.stored }

variable (db) in
/-- `Update` inserts into the tree. -/
theorem Stands.update (stands : Stands sha3Bin reread scope view trie tree) {key value : Bytes}
    (member : (compactHexDecode key, value) ∈ scope.pairs)
    (occurs : tree.insert (compactHexDecode key) value ∈ scope.trees) :
    ∃ next, trie.update sha3Bin db key value = some next ∧
      Stands sha3Bin reread scope view next (tree.insert (compactHexDecode key) value) ∧
      Evolves sha3Bin reread scope db trie.cache next.cache ∧
      next.prevRoot = trie.prevRoot := by
  have terminated := terminated_compactHexDecode key
  have canonical := canonical_insert stands.rooted terminated value
  have holds : ∀ other content, Terminated 16 other →
      (tree.insert (compactHexDecode key) value).get other = some content →
        (other, content) ∈ scope.pairs := by
    intro other content otherTerminated found
    rw [get_insert stands.rooted terminated otherTerminated] at found
    split at found
    · rename_i same
      rw [same, ← Option.some.inj found]
      exact member
    · exact stands.holds other content otherTerminated found
  have known : Known scope (tree.insert (compactHexDecode key) value) :=
    ⟨canonical, ⟨[], holds⟩, Scope.occurs_of_mem occurs⟩
  obtain ⟨reference, cache, inserted, evolves, held⟩ :=
    insertState_eq_insert db spec ok (Nat.lt_succ_self _) terminated stands.points known
  obtain ⟨nextStands, further, prevEq⟩ :=
    held.stands_setRoot db spec ok trie canonical holds known.occurs
  exact ⟨trie.setRoot sha3Bin reference cache, by simp [Trie.update, inserted], nextStands,
    evolves.trans further, prevEq⟩

end Steps

end Thelonious
