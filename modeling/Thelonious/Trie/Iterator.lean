import Thelonious.Lib.RadixEntries
import Thelonious.Trie.Runs

/-!
# Iterating over a trie

`TrieIterator.Each` visits the entries of the tree a trie stands for.
`ParanoiaCheck` copies them into a new trie and compares the roots; they agree
for every trie that stands for a tree.

The functions return the calls of the callback in their order.  The callback of
`ParanoiaCheck` only changes the copy, which has a cache of its own.
-/

namespace Thelonious

open Radix Radix.Patricia

/-- The calls of the callback, and the cache afterwards. -/
abbrev Visited := List (Bytes × Value) × Cache

namespace Trie

/-- The number of a slot as an element of a key.  `DecodeCompact` skips all
numbers from 16 on alike. -/
def slotSymbol (i : Nat) : Nibble := ⟨min i 16, by omega⟩

/-- `fetchNode` -/
def fetchNode (db : Database) (iterate : Cache → List Nibble → Value → Option Visited)
    (cache : Cache) (key : List Nibble) (node : Bytes) : Option Visited := do
  let (currentNode, cache) ← cache.get db node
  iterate cache key currentNode

/-- The body of the loop over the slots of a branch node. -/
def iterateSlot (db : Database) (iterate : Cache → List Nibble → Value → Option Visited)
    (key : List Nibble) (currentNode : Value) (cache : Cache) (i : Nat) : Option Visited :=
  let pk := key ++ [slotSymbol i]
  let child := currentNode.get i
  if i = 16 ∧ child.len ≠ 0 then some ([(decodeCompact pk, child)], cache)
  else if child.len ≠ 0 ∧ child.asStr = [] then iterate cache pk child
  else if child.asStr ≠ [] then fetchNode db iterate cache pk child.asStr
  else some ([], cache)

/-- A loop whose body may call the callback. -/
def visitAll (body : Cache → Nat → Option Visited) : Cache → List Nat → Option Visited
  | cache, [] => some ([], cache)
  | cache, i :: rest => do
      let (calls, cache) ← body cache i
      let (more, cache) ← visitAll body cache rest
      return (calls ++ more, cache)

/-- `iterateNode`; `depth` bounds the number of nodes on a path. -/
def iterateNode (db : Database) : Nat → Cache → List Nibble → Value → Option Visited
  | 0, _, _, _ => none
  | depth + 1, cache, key, currentNode =>
      if currentNode.len = 2 then do
        let k ← compactDecode (currentNode.get 0).asStr
        let pk := key ++ k
        let child := currentNode.get 1
        if child.len ≠ 0 ∧ child.asStr = [] then iterateNode db depth cache pk child
        else do
          let last ← k.getLast?
          if last = 16 then return ([(decodeCompact pk, child)], cache)
          else fetchNode db (iterateNode db depth) cache pk child.asBytes
      else
        visitAll (iterateSlot db (iterateNode db depth) key currentNode) cache
          (List.range currentNode.len)

/-- `Each` -/
def each (db : Database) (depth : Nat) (trie : Trie) : Option Visited :=
  fetchNode db (iterateNode db depth) trie.cache [] trie.root.asBytes

/-- `t2.Update(key, v.Str())` for every call of the callback. -/
def copyEntries (sha3Bin : Bytes → Bytes) (db : Database) (t2 : Trie)
    (calls : List (Bytes × Value)) : Option Trie :=
  calls.foldlM (fun t2 call => t2.update sha3Bin db call.1 call.2.asStr) t2

/-- `ParanoiaCheck`: whether the roots agree, the trie with the cache the iterator
has filled, and the copy. -/
def paranoiaCheck (sha3Bin : Bytes → Bytes) (db : Database) (depth : Nat) (t1 : Trie) :
    Option (Bool × Trie × Trie) := do
  let (calls, cache) ← t1.each db depth
  let t2 ← copyEntries sha3Bin db (.new (.str [])) calls
  return (t2.root.asBytes == t1.root.asBytes, { t1 with cache := cache }, t2)

/-- What `StateObject.Sync` and `State.Update` do at their end: the trie is
replaced when the check fails. -/
def paranoid (sha3Bin : Bytes → Bytes) (db : Database) (depth : Nat) (trie : Trie) :
    Option Trie := do
  let (valid, t1, t2) ← paranoiaCheck sha3Bin db depth trie
  return if valid then t1 else t2

end Trie

/-! ### The entries are visited -/

/-- The entries of a tree that starts at `key`, as the callback gets them. -/
def callsOf (key : List Nibble) (tree : PathTree) : List (Bytes × Bytes) :=
  (tree.entries (List.finRange 17)).map fun entry => (decodeCompact (key ++ entry.1), entry.2)

theorem callsOf_short (key path : List Nibble) (child : PathTree) :
    callsOf key (.short path child) = callsOf (key ++ path) child := by
  simp [callsOf, entries, List.map_map, Function.comp_def]

theorem callsOf_full (key : List Nibble) (children : Nibble → PathTree) :
    callsOf key (.full children) =
      (List.finRange 17).flatMap fun i => callsOf (key ++ [i]) (children i) := by
  simp [callsOf, entries, List.map_flatMap, List.map_map, Function.comp_def]

/-- The trees that `ParanoiaCheck` comes to when it copies the tree. -/
def rebuilds (tree : PathTree) : List PathTree :=
  insertions .empty (tree.entries (List.finRange 17))

section Visiting

variable {sha3Bin : Bytes → Bytes} {reread : Bool} {scope : Scope} {db : Database}
variable {view : View} [Reliable sha3Bin db view]

/-- Everything shown by one view is shown by the other. -/
def Shows (smaller larger : Bytes → Option Value) : Prop :=
  ∀ key value, smaller key = some value → larger key = some value

theorem Shows.refl (shown : Bytes → Option Value) : Shows shown shown :=
  fun _ _ found => found

theorem Shows.trans {first second third : Bytes → Option Value} (left : Shows first second)
    (right : Shows second third) : Shows first third :=
  fun key value found => right key value (left key value found)

variable {tree : PathTree} {cache : Cache} {depth : Nat} {trie : Trie}

theorem Keeps.shows {smaller larger : Bytes → Option Value} (shows : Shows smaller larger)
    (keeps : Keeps sha3Bin reread smaller tree) : Keeps sha3Bin reread larger tree := by
  obtain ⟨value, found, represents⟩ := keeps
  exact ⟨value, shows _ _ found, represents⟩

theorem Stored.shows {smaller larger : Bytes → Option Value} (shows : Shows smaller larger)
    (stored : Stored sha3Bin reread smaller tree) : Stored sha3Bin reread larger tree := by
  induction tree with
  | empty => trivial
  | value content => trivial
  | short path child induction =>
      exact ⟨fun large => (stored.1 large).shows shows, induction stored.2⟩
  | full children induction =>
      exact ⟨fun large => (stored.1 large).shows shows, fun i => induction i (stored.2 i)⟩

variable (sha3Bin) in
include sha3Bin in
theorem shows_of_get {cache next : Cache} {key : Bytes} {value : Value}
    (found : cache.get db key = some (value, next)) : Shows (view cache) (view next) :=
  fun _ _ shown => Reliable.view_get sha3Bin found shown

variable (sha3Bin reread scope db view) in
/-- Nodes of known trees were read, and nothing else was done to the cache. -/
structure Reads (cache next : Cache) : Prop where
  shows : Shows (view cache) (view next)
  evolves : Evolves sha3Bin reread scope db cache next

omit [Reliable sha3Bin db view] in
theorem Reads.refl (cache : Cache) : Reads sha3Bin reread scope db view cache cache :=
  ⟨.refl _, .refl⟩

omit [Reliable sha3Bin db view] in
theorem Reads.trans {cache middle next : Cache}
    (first : Reads sha3Bin reread scope db view cache middle)
    (second : Reads sha3Bin reread scope db view middle next) :
    Reads sha3Bin reread scope db view cache next :=
  ⟨first.shows.trans second.shows, first.evolves.trans second.evolves⟩

theorem reads_of_get {next : Cache} {value : Value} (known : Known scope tree)
    (represents : value.Represents reread (nodeItem sha3Bin tree))
    (found : cache.get db (sha3Bin (nodeItem sha3Bin tree).encode) = some (value, next)) :
    Reads sha3Bin reread scope db view cache next :=
  ⟨shows_of_get sha3Bin found, .single (.read known represents found)⟩

variable (sha3Bin reread scope db view) in
/-- The entries of the tree were visited, and the cache was only read. -/
def Visits (cache : Cache) (result : Option Visited) (key : List Nibble) (tree : PathTree) :
    Prop :=
  ∃ calls next, result = some (calls, next) ∧
    calls.map (fun call => (call.1, call.2.asStr)) = callsOf key tree ∧
    Reads sha3Bin reread scope db view cache next

omit [Reliable sha3Bin db view] in
theorem Visits.after {cache middle : Cache} {result : Option Visited} {key : List Nibble}
    {tree : PathTree} (reads : Reads sha3Bin reread scope db view cache middle)
    (visits : Visits sha3Bin reread scope db view middle result key tree) :
    Visits sha3Bin reread scope db view cache result key tree := by
  obtain ⟨calls, next, resultEq, callsEq, further⟩ := visits
  exact ⟨calls, next, resultEq, callsEq, reads.trans further⟩

omit [Reliable sha3Bin db view] in
theorem visits_value (cache : Cache) (key : List Nibble) {value : Value} {content : Bytes}
    (represents : value.Represents reread (.str content)) :
    Visits sha3Bin reread scope db view cache (some ([(decodeCompact key, value)], cache)) key
      (.value content) :=
  ⟨_, _, rfl, by simp [callsOf, entries, represents.asStr_eq], .refl _⟩

variable (db) in
/-- A reference to a node is an inline list, which has no `Str`, or a hash. -/
theorem Held.inline_or_fetched {value : Value}
    (spec : Sha3Spec sha3Bin (nodeEncodings sha3Bin scope)) (known : Known scope tree)
    (held : Held sha3Bin reread (view cache) value tree) :
    value.len ≠ 0 ∧
      ((value.asStr = [] ∧ value.Represents reread (nodeItem sha3Bin tree)) ∨
        (value.asStr ≠ [] ∧ value.asBytes = value.asStr ∧
          ∃ node next, cache.get db value.asStr = some (node, next) ∧
            node.Represents reread (nodeItem sha3Bin tree) ∧
            Reads sha3Bin reread scope db view cache next)) := by
  have refers := held.refers known.canonical
  have nonempty := refers.nonempty spec known.canonical
  refine ⟨fun isEmpty => nonempty (.inr isEmpty), ?_⟩
  rcases refers with represents | ⟨represents, node, found, nodeRepresents⟩
  · obtain ⟨items, isList⟩ := nodeItem_isList sha3Bin known.canonical
    obtain ⟨values, rfl, _⟩ := represents_list_iff.mp (isList ▸ represents)
    exact .inl ⟨rfl, represents⟩
  · obtain ⟨next, got⟩ : ∃ next, cache.get db _ = some (node, next) :=
      Reliable.get_of_view sha3Bin found
    refine .inr ⟨?_, ?_, node, next, ?_, nodeRepresents, reads_of_get known nodeRepresents got⟩
    · rw [represents.asStr_eq]
      exact spec.ne_nil _
    · rw [represents.asStr_eq, represents.asBytes_eq]
    · rw [represents.asStr_eq]
      exact got

theorem map_val_finRange : (List.finRange 17).map Fin.val = List.range 17 := by decide

theorem slotSymbol_val (i : Nibble) : Trie.slotSymbol i.val = i := by
  apply Fin.ext
  have bound := i.isLt
  simp only [Trie.slotSymbol]
  omega

omit [Reliable sha3Bin db view] in
/-- A loop over slots visits what its body visits. -/
theorem visitAll_of_body {body : Cache → Nat → Option Visited} {key : List Nibble}
    {children : Nibble → PathTree} (slots : List Nibble)
    (visits : ∀ last, Reads sha3Bin reread scope db view cache last → ∀ i : Nibble,
      Visits sha3Bin reread scope db view last (body last i) (key ++ [i]) (children i)) :
    ∃ calls next, Trie.visitAll body cache (slots.map Fin.val) = some (calls, next) ∧
      calls.map (fun call => (call.1, call.2.asStr)) =
        slots.flatMap (fun i => callsOf (key ++ [i]) (children i)) ∧
      Reads sha3Bin reread scope db view cache next := by
  induction slots generalizing cache with
  | nil => exact ⟨[], cache, rfl, rfl, .refl _⟩
  | cons i slots induction =>
      obtain ⟨calls, middle, bodyEq, callsEq, reads⟩ := visits cache (.refl _) i
      obtain ⟨more, next, restEq, moreEq, further⟩ :=
        induction fun last reached => visits last (reads.trans reached)
      refine ⟨calls ++ more, next, ?_, ?_, reads.trans further⟩
      · simp [Trie.visitAll, bodyEq, restEq]
      · rw [List.map_append, callsEq, moreEq, List.flatMap_cons]

theorem Known.depth_eq_succ (known : Known scope tree)
    (enough : ∀ rest value, tree.get rest = some value → rest.length ≤ depth) :
    ∃ less, depth = less + 1 := by
  obtain ⟨rest, value, terminated, found⟩ := known.canonical.exists_key
  have bound := enough rest value found
  have positive := List.length_pos_iff.mpr terminated.ne_nil
  exact ⟨depth - 1, by omega⟩

variable (spec : Sha3Spec sha3Bin (nodeEncodings sha3Bin scope)) (ok : scope.Ok)
include spec ok

/-- The body of the loop visits one slot, given that lower nodes are visited. -/
theorem iterateSlot_visits {iterate : Cache → List Nibble → Value → Option Visited}
    {key : List Nibble} {node : Value} {children : Nibble → PathTree}
    (known : Known scope (.full children)) (i : Nibble)
    (held : Held sha3Bin reread (view cache) (node.get i) (children i))
    (lower : Known scope (children i) →
      ∀ last lowerNode, Reads sha3Bin reread scope db view cache last →
      lowerNode.Represents reread (nodeItem sha3Bin (children i)) →
      Visits sha3Bin reread scope db view last (iterate last (key ++ [i]) lowerNode) (key ++ [i])
        (children i)) :
    Visits sha3Bin reread scope db view cache (Trie.iterateSlot db iterate key node cache i)
      (key ++ [i])
      (children i) := by
  unfold Trie.iterateSlot
  dsimp only
  rw [slotSymbol_val]
  rcases known.slot_cases i with isEmpty | ⟨notEnd, childKnown⟩ |
    ⟨rfl, path, content, isValue, member⟩
  · have represents := held.represents
    rw [isEmpty] at represents
    refine ⟨[], cache, ?_, by simp [isEmpty, callsOf, entries], .refl _⟩
    simp [represents.len_eq, represents.asStr_eq]
  · have notLast : ¬ i.val = 16 := fun isEnd => notEnd (Fin.ext isEnd)
    obtain ⟨nonempty, ⟨noText, represents⟩ | ⟨text, _, lowerNode, next, got, represents,
        reads⟩⟩ := held.inline_or_fetched db spec childKnown
    · rw [if_neg (fun both => notLast both.1), if_pos ⟨nonempty, noText⟩]
      exact lower childKnown cache _ (.refl _) represents
    · rw [if_neg (fun both => notLast both.1), if_neg (fun both => text both.2), if_pos text]
      simp only [Trie.fetchNode, got, Option.bind_eq_bind, Option.bind_some]
      exact (lower childKnown next lowerNode reads represents).after reads
  · have represents := held.represents
    rw [isValue] at represents ⊢
    have nonempty : (node.get (16 : Nibble)).len ≠ 0 := by
      rw [represents.len_eq]
      exact fun isNil => ok.nonempty member (List.length_eq_zero_iff.mp isNil)
    rw [if_pos ⟨rfl, nonempty⟩]
    exact visits_value cache _ represents

/-- `iterateNode` visits the entries of the tree of a node. -/
theorem iterateNode_visits {node : Value} (key : List Nibble) (known : Known scope tree)
    (represents : node.Represents reread (nodeItem sha3Bin tree))
    (stored : Stored sha3Bin reread (view cache) tree)
    (enough : ∀ rest value, tree.get rest = some value → rest.length ≤ depth) :
    Visits sha3Bin reread scope db view cache (Trie.iterateNode db depth cache key node)
      key tree := by
  induction tree generalizing depth cache key node with
  | empty => exact known.canonical.elim
  | value content => exact known.canonical.elim
  | short path child induction =>
      obtain ⟨depth, rfl⟩ := known.depth_eq_succ enough
      obtain ⟨length, pathEq, childRepresents⟩ := represents_short represents
      have decoded : compactDecode (node.get 0).asStr = some path := by
        rw [pathEq, compactDecode_compactPath (Canonical.pathOk known.canonical)]
      rw [Trie.iterateNode, if_pos length, decoded, Visits, callsOf_short]
      simp only [Option.bind_eq_bind, Option.bind_some]
      rcases known.short_cases with ⟨terminated, before, content, rfl, member⟩ |
        ⟨nonempty, interior, _, childKnown⟩
      · -- a leaf: its value is never empty
        have text : (node.get 1).asStr ≠ [] := by
          rw [Value.Represents.asStr_eq childRepresents]
          exact ok.nonempty member
        rw [if_neg (fun both => text both.2), terminated.getLast?]
        exact visits_value cache _ childRepresents
      · have lower : ∀ rest value, child.get rest = some value → rest.length ≤ depth := by
          intro rest value found
          have whole := enough (path ++ rest) value (by rwa [get_short_append])
          have positive := List.length_pos_iff.mpr nonempty
          rw [List.length_append] at whole
          omega
        have held : Held sha3Bin reread (view cache) (node.get 1) child :=
          ⟨childRepresents, stored.2⟩
        obtain ⟨childLength, ⟨noText, inlined⟩ | ⟨text, bytesEq, lowerNode, next, got, fetched,
          reads⟩⟩ := held.inline_or_fetched db spec childKnown
        · rw [if_pos ⟨childLength, noText⟩]
          exact induction _ childKnown inlined stored.2 lower
        · obtain ⟨last, lastEq⟩ : ∃ last, path.getLast? = some last :=
            ⟨path.getLast nonempty, List.getLast?_eq_some_getLast nonempty⟩
          have notEnd : last ≠ 16 := by
            rintro rfl
            exact interior (List.mem_of_getLast? lastEq)
          rw [if_neg (fun both => text both.2), lastEq, Option.bind_some, if_neg notEnd, bytesEq]
          simp only [Trie.fetchNode, got, Option.bind_eq_bind, Option.bind_some]
          exact (induction _ childKnown fetched (stored.2.shows reads.shows) lower).after reads
  | full children induction =>
      obtain ⟨depth, rfl⟩ := known.depth_eq_succ enough
      obtain ⟨length, slots⟩ := represents_full represents
      rw [Trie.iterateNode, length, if_neg (by decide), ← map_val_finRange, Visits,
        callsOf_full]
      refine visitAll_of_body _ fun last reads i => ?_
      refine iterateSlot_visits spec ok known i ⟨slots i, (stored.2 i).shows reads.shows⟩ ?_
      intro childKnown later lowerNode further lowerRepresents
      refine induction i _ childKnown lowerRepresents
        ((stored.2 i).shows (reads.trans further).shows) ?_
      intro rest value found
      have whole := enough (i :: rest) value found
      simpa using whole

/-! ### The check -/

omit ok [Reliable sha3Bin db view] in
theorem Evolves.lookup_of_length {next : Cache}
    (evolves : Evolves sha3Bin reread scope db cache next) {key : Bytes}
    (length : key.length ≠ 32) :
    next.nodes.lookup key = cache.nodes.lookup key := by
  have different : ∀ data, key ≠ sha3Bin data := by
    rintro data rfl
    exact length (spec.length_eq data)
  induction evolves with
  | refl => rfl
  | tail _ step induction =>
      rw [← induction]
      cases step with
      | read _ _ found =>
          rcases Cache.get_cases found with rfl | ⟨_, _, rfl⟩
          · rfl
          · exact AList.lookup_insert_ne (different _)
      | put force _ _ =>
          unfold Cache.putValue
          dsimp only
          split
          · exact AList.lookup_insert_ne (different _)
          · rfl

variable (db) in
/-- `Each` visits the entries of the tree.  An empty trie is looked up under the
empty key. -/
theorem Stands.each (stands : Stands sha3Bin reread scope view trie tree) (positive : 0 < depth)
    (nothing : trie.cache.source db [] = some .nil)
    (enough : ∀ key value, tree.get key = some value → key.length ≤ depth) :
    ∃ calls next, trie.each db depth = some (calls, next) ∧
      calls.map (fun call => (call.1, call.2.asStr)) = callsOf [] tree ∧
      Shows (view trie.cache) (view next) ∧
      (Evolves sha3Bin reread scope db trie.cache next ∨
        trie.cache.get db [] = some (.nil, next)) := by
  unfold Trie.each Trie.fetchNode
  rcases stands.empty_or_known with rfl | known
  · obtain ⟨next, got⟩ := Cache.get_of_source nothing
    have rootEq : trie.root.asBytes = [] := stands.root.asBytes_eq
    obtain ⟨depth, rfl⟩ : ∃ less, depth = less + 1 := ⟨depth - 1, by omega⟩
    rw [rootEq, got]
    exact ⟨[], next, rfl, rfl, shows_of_get sha3Bin got, .inr rfl⟩
  · obtain ⟨node, found, represents⟩ := stands.keeps known.canonical
    obtain ⟨next, got⟩ : ∃ next, trie.cache.get db _ = some (node, next) :=
      Reliable.get_of_view sha3Bin found
    have rootEq := stands.root
    rw [rootItem_canonical known.canonical] at rootEq
    have reads : Reads sha3Bin reread scope db view trie.cache next :=
      reads_of_get known represents got
    rw [rootEq.asBytes_eq, got]
    obtain ⟨calls, last, visited, callsEq, further⟩ :=
      (iterateNode_visits spec ok [] known represents (stands.stored.shows reads.shows)
        enough).after reads
    exact ⟨calls, last, visited, callsEq, further.shows, .inl further.evolves⟩

variable (db) in
/-- Copying entries inserts them. -/
theorem Stands.copyEntries (stands : Stands sha3Bin reread scope view trie tree)
    (calls : List (Bytes × Value))
    (members : ∀ call ∈ calls, (compactHexDecode call.1, call.2.asStr) ∈ scope.pairs)
    (copies : ∀ next ∈ insertions tree
      (calls.map fun call => (compactHexDecode call.1, call.2.asStr)), next ∈ scope.trees) :
    ∃ next, trie.copyEntries sha3Bin db calls = some next ∧
      Stands sha3Bin reread scope view next (tree.insertEntries
        (calls.map fun call => (compactHexDecode call.1, call.2.asStr))) := by
  induction calls generalizing trie tree with
  | nil => exact ⟨trie, rfl, stands⟩
  | cons call calls induction =>
      obtain ⟨next, updated, nextStands, _⟩ :=
        stands.update db spec ok (members call List.mem_cons_self)
          (copies _ (List.mem_cons_of_mem _ (mem_insertions_self _ _)))
      obtain ⟨last, copied, lastStands⟩ := induction nextStands
        (fun other member => members other (List.mem_cons_of_mem _ member))
        fun next member => copies next (List.mem_cons_of_mem _ member)
      exact ⟨last, by simpa [Trie.copyEntries, updated] using copied, lastStands⟩

omit spec ok in
theorem Stands.root_asBytes_eq {other : Trie} {otherView : View}
    (stands : Stands sha3Bin reread scope view trie tree)
    (otherStands : Stands sha3Bin reread scope otherView other tree) :
    trie.root.asBytes = other.root.asBytes := by
  have represents := stands.root
  have otherRepresents := otherStands.root
  obtain ⟨data, isStr⟩ : ∃ data, rootItem sha3Bin tree = .str data := by
    cases tree <;> exact ⟨_, rfl⟩
  rw [isStr] at represents otherRepresents
  rw [represents.asBytes_eq, otherRepresents.asBytes_eq]

omit spec ok in
/-- The keys the callback gets, turned into paths again. -/
theorem map_callsOf
    (texts : ∀ key value, tree.get key = some value → ∃ text, key = compactHexDecode text) :
    (callsOf [] tree).map (fun call => (compactHexDecode call.1, call.2)) =
      tree.entries (List.finRange 17) := by
  rw [callsOf, List.map_map]
  conv_rhs => rw [← List.map_id (tree.entries (List.finRange 17))]
  refine List.map_congr_left fun entry member => ?_
  obtain ⟨text, isText⟩ := texts entry.1 entry.2
    ((mem_entries List.mem_finRange tree entry.1 entry.2).mp member)
  have keyEq : compactHexDecode (decodeCompact entry.1) = entry.1 := by
    rw [isText, decodeCompact_compactHexDecode]
  simp [keyEq]

variable (db) in
/-- The check finds the roots equal, so the trie is kept. -/
theorem Stands.paranoid (stands : Stands sha3Bin reread scope view trie tree) (positive : 0 < depth)
    (nothing : trie.cache.source db [] = some .nil)
    (lengths : ∀ pair ∈ scope.pairs, pair.1.length ≤ depth)
    (texts : ∀ pair ∈ scope.pairs, ∃ text, pair.1 = compactHexDecode text)
    (copies : ∀ next ∈ rebuilds tree, next ∈ scope.trees) :
    ∃ cache, trie.paranoid sha3Bin db depth = some { trie with cache := cache } ∧
      Stands sha3Bin reread scope view { trie with cache := cache } tree ∧
      (Evolves sha3Bin reread scope db trie.cache cache ∨
        trie.cache.get db [] = some (.nil, cache)) := by
  have member : ∀ key value, tree.get key = some value → (key, value) ∈ scope.pairs := by
    intro key value found
    rcases stands.rooted with rfl | canonical
    · cases found
    · exact stands.holds key value (canonical.terminated_of_get found) found
  obtain ⟨calls, next, visited, callsEq, shows, read⟩ := stands.each db spec ok positive nothing
    fun key value found => lengths _ (member key value found)
  have copiedEq : (calls.map fun call => (compactHexDecode call.1, call.2.asStr)) =
      tree.entries (List.finRange 17) := by
    rw [← map_callsOf fun key value found => texts _ (member key value found), ← callsEq,
      List.map_map]
    rfl
  obtain ⟨t2, copied, t2Stands⟩ := (stands_new sha3Bin reread scope view).copyEntries db spec ok
    calls (by
      intro call inside
      have entry : (compactHexDecode call.1, call.2.asStr) ∈
          tree.entries (List.finRange 17) := by
        rw [← copiedEq]
        exact List.mem_map_of_mem inside
      exact member _ _ ((mem_entries List.mem_finRange tree _ _).mp entry))
    (by rwa [copiedEq])
  rw [copiedEq, insertEntries_entries List.mem_finRange stands.rooted] at t2Stands
  refine ⟨next, ?_, stands.transfer rfl fun _ _ keeps => keeps.shows shows, read⟩
  simp [Trie.paranoid, Trie.paranoiaCheck, visited, copied, t2Stands.root_asBytes_eq stands]

end Visiting

/-- What a run on a new trie and a `ParanoiaCheck` of the trie come to. -/
def checkScope (ops : List TrieOp) : Scope :=
  ⟨pairsOf (TrieOp.updates ops), {tree | tree ∈ TrieOp.reached .empty ops ∨
    tree ∈ rebuilds (ops.foldl TrieOp.applyToTree .empty)}⟩

/-- After a run whose deletions are all safe, `Each` calls back once for every key of the map
that the run describes, with the value of the key, and `ParanoiaCheck` has the trie kept. -/
theorem each_run_reports_content (sha3Bin : Bytes → Bytes) (db : Database) (ops : List TrieOp)
    (size depth : Nat) (sizes : ∀ op ∈ ops, op.key.length = size)
    (spec : Sha3Spec sha3Bin (nodeEncodings sha3Bin (checkScope ops)))
    (safe : TrieOp.SafeRun sha3Bin .empty ops) (unused : db.get [] = [])
    (enough : 2 * size < depth) :
    ∃ trie calls cache kept, (Trie.new (.str [])).run sha3Bin db ops = some trie ∧
      trie.each db depth = some (calls, cache) ∧ (calls.map Prod.fst).Nodup ∧
      (∀ key value, (key, value) ∈ calls.map (fun call => (call.1, call.2.asStr)) ↔
        TrieOp.content ops key = some value) ∧
      trie.paranoid sha3Bin db depth = some { trie with cache := kept } := by
  have ok := ok_of_subset (Set.Subset.refl (checkScope ops).pairs)
  have texts := text_of_mem_pairsOf (TrieOp.updates ops)
  have lengths := length_of_mem_pairsOf sizes
  obtain ⟨trie, run, stands, evolves⟩ := (stands_new sha3Bin false _ Cache.memory).run db spec ok
    (collapsible_safeDelete spec ok) (Set.Subset.refl _) lengths sizes safe fun _ => .inl
  have unread : trie.cache.nodes.lookup [] = none := evolves.lookup_of_length spec (by simp)
  have nothing : trie.cache.source db [] = some .nil := by
    simp [Cache.source, unread, unused, newValueFromBytes]
  have bounded : ∀ pair ∈ pairsOf (TrieOp.updates ops), pair.1.length ≤ depth :=
    fun pair member => (lengths pair member).trans_le enough
  set tree := ops.foldl TrieOp.applyToTree .empty
  have written : ∀ key value, tree.get key = some value →
      (key, value) ∈ pairsOf (TrieOp.updates ops) := by
    intro key value found
    rcases stands.rooted with isEmpty | canonical
    · simp [isEmpty, Patricia.get] at found
    · exact stands.holds key value (canonical.terminated_of_get found) found
  obtain ⟨calls, cache, visited, callsEq, -, -⟩ := stands.each db spec ok (by omega) nothing
    fun key value found => bounded _ (written key value found)
  obtain ⟨kept, checked, -, -⟩ := stands.paranoid db spec ok (by omega) nothing bounded texts
    fun _ => .inr
  have entriesEq := map_callsOf fun key value found => texts _ (written key value found)
  refine ⟨trie, calls, cache, kept, run, visited, ?_, fun key value => ?_, checked⟩
  · have distinct := nodup_entries (List.nodup_finRange 17) tree
    rw [← entriesEq, ← callsEq, List.map_map, List.map_map] at distinct
    refine List.Nodup.of_map compactHexDecode ?_
    rwa [List.map_map]
  · have injective : Function.Injective fun call : Bytes × Bytes =>
        (compactHexDecode call.1, call.2) :=
      compactHexDecode_injective.prodMap Function.injective_id
    have content : tree.get (compactHexDecode key) = TrieOp.content ops key :=
      get_foldl_applyToTree ops .empty rfl
    rw [callsEq, ← List.mem_map_of_injective injective, entriesEq, mem_entries List.mem_finRange,
      content]

theorem rebuilds_letterRun :
    rebuilds (letterRun.foldl TrieOp.applyToTree .empty) ⊆ letterTrees := by
  have left : letterRun.foldl TrieOp.applyToTree .empty =
      .short [6, 1, 16] (.value [0x77]) := by
    change ((short [6] (full letterSlots)).delete [6, 2, 16]).insert [6, 1, 16] [0x77] = _
    rw [delete_letters]
    rfl
  rw [left]
  intro tree member
  rcases List.mem_pair.mp member with rfl | rfl
  · exact List.mem_append_right _ List.mem_cons_self
  · exact List.mem_append_right _
      (List.mem_cons_of_mem _ (List.mem_cons_of_mem _ List.mem_cons_self))

/-- A trie in which a value has been deleted and another one overwritten. -/
theorem each_run_reports_overwritten : ∃ trie calls cache kept,
    (Trie.new (.str [])).run letterHash ∅ letterRun = some trie ∧
      trie.each ∅ 3 = some (calls, cache) ∧ (calls.map Prod.fst).Nodup ∧
      (∀ key value, (key, value) ∈ calls.map (fun call => (call.1, call.2.asStr)) ↔
        TrieOp.content letterRun key = some value) ∧
      trie.paranoid letterHash ∅ 3 = some { trie with cache := kept } := by
  refine each_run_reports_content letterHash ∅ letterRun 1 3 (by decide) (letterRun_spec ?_)
    safeRun_letterRun rfl (by decide)
  rintro tree (onTheWay | copied)
  · exact reached_letterRun onTheWay
  · exact rebuilds_letterRun copied

end Thelonious
