import Thelonious.Lib.RadixContent
import Thelonious.Trie.Encoding
import Thelonious.Util.Plain
import Thelonious.Util.Sha3

/-!
# The root commits to the content

A trie stands for a path-compressed tree over nibbles.  This file says which
item the trie code writes for such a tree, and that different canonical trees
are never written as the same item.

What the results need of the hash is that it separates the nodes at hand: those of
the trees that a given run comes to.
-/

namespace Thelonious

open Radix Radix.Patricia

abbrev PathTree := Radix.Patricia Nibble Bytes

/-- What the tries of a run come to: the pairs of a whole key and a value that they hold,
and the trees that they stand for. -/
structure Scope where
  pairs : Set (List Nibble × Bytes)
  trees : Set PathTree

namespace Scope

instance : HasSubset Scope where
  Subset small large := small.pairs ⊆ large.pairs ∧ small.trees ⊆ large.trees

instance : Union Scope where
  union left right := ⟨left.pairs ∪ right.pairs, left.trees ∪ right.trees⟩

theorem subset_union_left (left right : Scope) : left ⊆ left ∪ right :=
  ⟨Set.subset_union_left, Set.subset_union_left⟩

theorem subset_union_right (left right : Scope) : right ⊆ left ∪ right :=
  ⟨Set.subset_union_right, Set.subset_union_right⟩

end Scope

/-- A node of the tree `whole`. -/
inductive Part (whole : PathTree) : PathTree → Prop
  | whole : Part whole whole
  | child {path : List Nibble} {tree : PathTree} : Part whole (.short path tree) → Part whole tree
  | slot {children : Nibble → PathTree} (symbol : Nibble) :
      Part whole (.full children) → Part whole (children symbol)

/-- A node of one of the trees. -/
def Scope.Occurs (scope : Scope) (tree : PathTree) : Prop :=
  ∃ whole ∈ scope.trees, Part whole tree

theorem Scope.occurs_of_mem {scope : Scope} {tree : PathTree} (member : tree ∈ scope.trees) :
    scope.Occurs tree :=
  ⟨tree, member, .whole⟩

/-- What a Go program can hold: strings have fewer than `2 ^ 48` bytes.  Storing
the empty string is not among the operations considered. -/
structure Scope.Ok (scope : Scope) : Prop where
  keyLength : ∀ {key value}, (key, value) ∈ scope.pairs → key.length ≤ 2 ^ 49
  valueLength : ∀ {key value}, (key, value) ∈ scope.pairs → value.length < 2 ^ 48
  nonempty : ∀ {key value}, (key, value) ∈ scope.pairs → value ≠ []

/-- All pairs a tree holds, read from some position on, belong to `scope`. -/
def Within (scope : Scope) (tree : PathTree) : Prop :=
  ∃ path, ∀ rest value, Terminated 16 rest → tree.get rest = some value →
    (path ++ rest, value) ∈ scope.pairs

/-- A node that the run comes to. -/
structure Known (scope : Scope) (tree : PathTree) : Prop where
  canonical : Canonical 16 tree
  within : Within scope tree
  occurs : scope.Occurs tree

/-- What stands in a slot of a node. -/
def Child (scope : Scope) (tree : PathTree) : Prop :=
  tree = .empty ∨ Known scope tree ∨
    ∃ key content, tree = .value content ∧ (key, content) ∈ scope.pairs

/-! ### Writing a tree -/

section Writing

variable (sha3Bin : Bytes → Bytes)

/-- What `Put` returns for a node: the node itself when it is small. -/
def Item.ref (item : Item) : Item :=
  if 32 ≤ item.encode.length then .str (sha3Bin item.encode) else item

/-- The item written for a tree inside its parent. -/
def commit : PathTree → Item
  | .empty => .str []
  | .value content => .str content
  | .short path child =>
      Item.ref sha3Bin (.list [.str (compactPath path), commit child])
  | .full children => Item.ref sha3Bin (.list (List.ofFn fun i => commit (children i)))

/-- The node of a tree, which `commit` refers to. -/
def nodeItem : PathTree → Item
  | .empty => .str []
  | .value content => .str content
  | .short path child => .list [.str (compactPath path), commit sha3Bin child]
  | .full children => .list (List.ofFn fun i => commit sha3Bin (children i))

/-- The root is hashed whatever its size. -/
def rootItem : PathTree → Item
  | .empty => .str []
  | tree => .str (sha3Bin (nodeItem sha3Bin tree).encode)

/-- The strings hashed for the nodes. -/
def nodeEncodings (scope : Scope) : Set Bytes :=
  {enc | ∃ tree, Known scope tree ∧ enc = (nodeItem sha3Bin tree).encode}

end Writing

section Trees

variable {sha3Bin : Bytes → Bytes} {scope : Scope} {path : List Nibble} {tree : PathTree}
  {children : Nibble → PathTree}

theorem commit_canonical (canonical : Canonical 16 tree) :
    commit sha3Bin tree = Item.ref sha3Bin (nodeItem sha3Bin tree) := by
  cases tree with
  | empty => exact canonical.elim
  | value content => exact canonical.elim
  | short path child => rfl
  | full children => rfl

theorem rootItem_canonical (canonical : Canonical 16 tree) :
    rootItem sha3Bin tree = .str (sha3Bin (nodeItem sha3Bin tree).encode) := by
  cases tree with
  | empty => exact canonical.elim
  | _ => rfl

theorem nodeItem_isList (sha3Bin : Bytes → Bytes) (canonical : Canonical 16 tree) :
    ∃ items, nodeItem sha3Bin tree = .list items := by
  cases tree with
  | empty => exact canonical.elim
  | value content => exact canonical.elim
  | short path child => exact ⟨_, rfl⟩
  | full children => exact ⟨_, rfl⟩

/-! ### Parts of a tree -/

theorem Canonical.pathOk {child : PathTree} (canonical : Canonical 16 (.short path child)) :
    PathOk path := by
  rcases canonical with ⟨terminated, _⟩ | ⟨nonempty, interior, _⟩
  · exact pathOk_of_terminated terminated
  · exact pathOk_of_interior nonempty interior

theorem Within.child {child : PathTree} (within : Within scope (.short path child))
    (interior : 16 ∉ path) :
    Within scope child := by
  obtain ⟨before, holds⟩ := within
  refine ⟨before ++ path, fun rest value terminated found => ?_⟩
  rw [List.append_assoc]
  exact holds (path ++ rest) value (.append interior terminated)
    (by rwa [get_short_append])

theorem Within.slot (within : Within scope (.full children)) {symbol : Nibble}
    (notEnd : symbol ≠ 16) : Within scope (children symbol) := by
  obtain ⟨before, holds⟩ := within
  refine ⟨before ++ [symbol], fun rest value terminated found => ?_⟩
  rw [List.append_assoc]
  exact holds (symbol :: rest) value (.inr ⟨notEnd, terminated⟩) found

/-- Below an edge there is a value of a pair, or a branching. -/
theorem Known.short_cases {child : PathTree} (known : Known scope (.short path child)) :
    (Terminated 16 path ∧ ∃ before content, child = .value content ∧
      (before ++ path, content) ∈ scope.pairs) ∨
    (path ≠ [] ∧ 16 ∉ path ∧ child.IsFull ∧ Known scope child) := by
  obtain ⟨canonical, within, whole, member, part⟩ := known
  rcases canonical with ⟨terminated, content, rfl⟩ | ⟨nonempty, interior, isFull, canonical⟩
  · obtain ⟨before, holds⟩ := within
    exact .inl ⟨terminated, before, content, rfl,
      holds path content terminated (by simp [Patricia.get])⟩
  · exact .inr ⟨nonempty, interior, isFull, canonical, within.child interior, whole, member,
      part.child⟩

/-- A slot of a branching is empty, a node, or, at the end, a value. -/
theorem Known.slot_cases (known : Known scope (.full children)) (symbol : Nibble) :
    children symbol = .empty ∨ (symbol ≠ 16 ∧ Known scope (children symbol)) ∨
      (symbol = 16 ∧ ∃ key content, children symbol = .value content ∧
        (key, content) ∈ scope.pairs) := by
  obtain ⟨canonical, within, whole, member, part⟩ := known
  by_cases isEmpty : children symbol = .empty
  · exact .inl isEmpty
  · rcases canonical.slotsFit symbol isEmpty with ⟨notEnd, canonical⟩ | ⟨rfl, content, isValue⟩
    · exact .inr (.inl ⟨notEnd, canonical, within.slot notEnd, whole, member, part.slot symbol⟩)
    · obtain ⟨before, holds⟩ := within
      exact .inr (.inr ⟨rfl, before ++ [16], content, isValue,
        holds [16] content (terminated_singleton 16) (by simp [Patricia.get, isValue])⟩)

theorem Known.child {child : PathTree} (known : Known scope (.short path child)) :
    Child scope child := by
  rcases known.short_cases with ⟨_, before, content, isValue, member⟩ | ⟨_, _, _, childKnown⟩
  · exact .inr (.inr ⟨_, content, isValue, member⟩)
  · exact .inr (.inl childKnown)

theorem Known.slot (known : Known scope (.full children)) (symbol : Nibble) :
    Child scope (children symbol) := by
  rcases known.slot_cases symbol with isEmpty | ⟨_, childKnown⟩ | ⟨_, isValue⟩
  · exact .inl isEmpty
  · exact .inr (.inl childKnown)
  · exact .inr (.inr isValue)

theorem Known.path_length_le (ok : scope.Ok) {child : PathTree}
    (known : Known scope (.short path child)) :
    path.length ≤ 2 ^ 49 := by
  obtain ⟨key, value, terminated, found⟩ := known.canonical.exists_key
  obtain ⟨before, holds⟩ := known.within
  have bound := ok.keyLength (holds key value terminated found)
  obtain ⟨rest, rfl⟩ := prefix_of_get_short found
  simp only [List.length_append] at bound
  omega

/-! ### Size of a node -/

section Size

variable {hashed : Set Bytes} (spec : Sha3Spec sha3Bin hashed)
include spec

theorem length_encode_ref_le (item : Item) : (Item.ref sha3Bin item).encode.length ≤ 41 := by
  unfold Item.ref
  split
  · have length := spec.length_eq item.encode
    have bound : (encodeBytes (sha3Bin item.encode)).length ≤ (sha3Bin item.encode).length + 9 :=
      length_encodeBytes_le (by omega)
    rw [Item.encode]
    omega
  · omega

private theorem length_encode_commit_le (ok : scope.Ok) {child : PathTree}
    (isChild : Child scope child) :
    (commit sha3Bin child).encode.length ≤ 2 ^ 48 + 9 := by
  rcases isChild with rfl | known | ⟨key, content, rfl, member⟩
  · simp [commit, Item.encode, encodeBytes]
  · rw [commit_canonical known.canonical]
    exact (length_encode_ref_le spec _).trans (by decide)
  · have bound := ok.valueLength member
    rw [commit, Item.encode]
    exact (length_encodeBytes_le (by omega)).trans (by omega)

omit spec in
private theorem length_encodeAll_le (items : List Item) (limit : Nat)
    (each : ∀ item ∈ items, item.encode.length ≤ limit) :
    (Item.encodeAll items).length ≤ items.length * limit := by
  induction items with
  | nil => simp [Item.encodeAll]
  | cons item items induction =>
      have first := each item List.mem_cons_self
      have others := induction (fun item member => each item (List.mem_cons_of_mem _ member))
      simp only [Item.encodeAll, List.length_append, List.length_cons, Nat.succ_mul]
      omega

omit spec in
private theorem length_encode_list_lt {items : List Item} (limit : Nat)
    (each : ∀ item ∈ items, item.encode.length ≤ limit)
    (bound : items.length * limit ≤ 2 ^ 60) : (Item.list items).encode.length < 2 ^ 64 := by
  have payload := length_encodeAll_le items limit each
  have header : (sliceHeader (Item.encodeAll items).length).length ≤ 9 :=
    length_sliceHeader_le (by omega)
  rw [Item.encode, List.length_append]
  omega

theorem length_encode_nodeItem_lt (ok : scope.Ok) {tree : PathTree}
    (known : Known scope tree) : (nodeItem sha3Bin tree).encode.length < 2 ^ 64 := by
  cases tree with
  | empty => exact known.canonical.elim
  | value content => exact known.canonical.elim
  | short path child =>
      have pathLength := known.path_length_le ok
      have compact := length_compactPath_le path
      refine length_encode_list_lt (2 ^ 50) ?_ (by simp)
      intro item member
      simp only [List.mem_cons, List.not_mem_nil, or_false] at member
      rcases member with rfl | rfl
      · rw [Item.encode]
        exact (length_encodeBytes_le (by omega)).trans (by omega)
      · exact (length_encode_commit_le spec ok known.child).trans (by omega)
  | full children =>
      refine length_encode_list_lt (2 ^ 50) ?_ (by simp)
      intro item member
      obtain ⟨symbol, rfl⟩ := (List.mem_ofFn' _ _).mp member
      exact (length_encode_commit_le spec ok (known.slot symbol)).trans (by omega)

end Size

/-! ### Reading a tree off its item -/

section Injective

variable (spec : Sha3Spec sha3Bin (nodeEncodings sha3Bin scope)) (ok : scope.Ok)
include spec

theorem ref_ne_empty {items : List Item} : Item.ref sha3Bin (.list items) ≠ .str [] := by
  unfold Item.ref
  split
  · simpa using spec.ne_nil _
  · simp

theorem commit_ne_empty {tree : PathTree} (canonical : Canonical 16 tree) :
    commit sha3Bin tree ≠ .str [] := by
  obtain ⟨items, isList⟩ := nodeItem_isList sha3Bin canonical
  rw [commit_canonical canonical, isList]
  exact ref_ne_empty spec

include ok

variable {left right : PathTree}

theorem nodeItem_eq_of_hash_eq (leftKnown : Known scope left) (rightKnown : Known scope right)
    (same : sha3Bin (nodeItem sha3Bin left).encode = sha3Bin (nodeItem sha3Bin right).encode) :
    nodeItem sha3Bin left = nodeItem sha3Bin right :=
  Item.encode_injective (length_encode_nodeItem_lt spec ok leftKnown)
    (spec.injOn ⟨left, leftKnown, rfl⟩ ⟨right, rightKnown, rfl⟩ same)

theorem nodeItem_eq_of_commit_eq (leftKnown : Known scope left) (rightKnown : Known scope right)
    (same : commit sha3Bin left = commit sha3Bin right) :
    nodeItem sha3Bin left = nodeItem sha3Bin right := by
  rw [commit_canonical leftKnown.canonical, commit_canonical rightKnown.canonical] at same
  obtain ⟨leftItems, leftList⟩ := nodeItem_isList sha3Bin leftKnown.canonical
  obtain ⟨rightItems, rightList⟩ := nodeItem_isList sha3Bin rightKnown.canonical
  unfold Item.ref at same
  split at same <;> split at same
  · simp only [Item.str.injEq] at same
    exact nodeItem_eq_of_hash_eq spec ok leftKnown rightKnown same
  · rw [rightList] at same
    cases same
  · rw [leftList] at same
    cases same
  · exact same

private theorem short_eq_of_nodeItem_eq {path other : List Nibble}
    {child otherChild : PathTree} (known : Known scope (.short path child))
    (otherKnown : Known scope (.short other otherChild))
    (below : Known scope child → Known scope otherChild →
      nodeItem sha3Bin child = nodeItem sha3Bin otherChild → child = otherChild)
    (same : nodeItem sha3Bin (.short path child) =
      nodeItem sha3Bin (.short other otherChild)) :
    short path child = short other otherChild := by
  simp only [nodeItem, Item.list.injEq, List.cons.injEq, Item.str.injEq, and_true] at same
  obtain ⟨pathSame, childSame⟩ := same
  have pathEq : path = other := by
    have read := compactDecode_compactPath (Canonical.pathOk known.canonical)
    rw [pathSame, compactDecode_compactPath (Canonical.pathOk otherKnown.canonical)] at read
    exact (Option.some.inj read).symm
  subst pathEq
  rcases known.short_cases with ⟨terminated, _, content, rfl, _⟩ |
    ⟨_, interior, _, childKnown⟩
  · rcases otherKnown.short_cases with ⟨_, _, otherContent, rfl, _⟩ | ⟨_, interior, _⟩
    · simp only [commit, Item.str.injEq] at childSame
      rw [childSame]
    · exact (interior terminated.mem).elim
  · rcases otherKnown.short_cases with ⟨terminated, _⟩ | ⟨_, _, _, otherChildKnown⟩
    · exact (interior terminated.mem).elim
    · rw [below childKnown otherChildKnown
        (nodeItem_eq_of_commit_eq spec ok childKnown otherChildKnown childSame)]

private theorem slot_eq_of_commit_eq {children others : Nibble → PathTree}
    (known : Known scope (.full children)) (otherKnown : Known scope (.full others))
    (symbol : Nibble)
    (below : Known scope (children symbol) → Known scope (others symbol) →
      nodeItem sha3Bin (children symbol) = nodeItem sha3Bin (others symbol) →
        children symbol = others symbol)
    (same : commit sha3Bin (children symbol) = commit sha3Bin (others symbol)) :
    children symbol = others symbol := by
  rcases known.slot_cases symbol with isEmpty | ⟨notEnd, childKnown⟩ |
    ⟨isEnd, key, content, isValue, member⟩
  · rcases otherKnown.slot_cases symbol with otherEmpty | ⟨_, otherChildKnown⟩ |
      ⟨_, _, otherContent, isValue, member⟩
    · rw [isEmpty, otherEmpty]
    · rw [isEmpty] at same
      exact (commit_ne_empty spec otherChildKnown.canonical same.symm).elim
    · rw [isEmpty, isValue] at same
      exact (ok.nonempty member (Item.str.inj same).symm).elim
  · rcases otherKnown.slot_cases symbol with otherEmpty | ⟨_, otherChildKnown⟩ | ⟨isEnd, _⟩
    · rw [otherEmpty] at same
      exact (commit_ne_empty spec childKnown.canonical same).elim
    · exact below childKnown otherChildKnown
        (nodeItem_eq_of_commit_eq spec ok childKnown otherChildKnown same)
    · exact (notEnd isEnd).elim
  · rcases otherKnown.slot_cases symbol with otherEmpty | ⟨notEnd, _⟩ |
      ⟨_, _, otherContent, otherValue, _⟩
    · rw [isValue, otherEmpty] at same
      exact (ok.nonempty member (Item.str.inj same)).elim
    · exact (notEnd isEnd).elim
    · rw [isValue, otherValue] at same ⊢
      rw [Item.str.inj same]

theorem eq_of_nodeItem_eq (leftKnown : Known scope left) (rightKnown : Known scope right)
    (same : nodeItem sha3Bin left = nodeItem sha3Bin right) : left = right := by
  induction left generalizing right with
  | empty => exact leftKnown.canonical.elim
  | value content => exact leftKnown.canonical.elim
  | short path child induction =>
      cases right with
      | empty => exact rightKnown.canonical.elim
      | value content => exact rightKnown.canonical.elim
      | short other otherChild =>
          exact short_eq_of_nodeItem_eq spec ok leftKnown rightKnown
            (fun known otherKnown nodeEq => induction known otherKnown nodeEq) same
      | full others =>
          have lengths := congrArg List.length (Item.list.inj same)
          simp at lengths
  | full children induction =>
      cases right with
      | empty => exact rightKnown.canonical.elim
      | value content => exact rightKnown.canonical.elim
      | short other otherChild =>
          have lengths := congrArg List.length (Item.list.inj same)
          simp at lengths
      | full others =>
          have slots := List.ofFn_injective (Item.list.inj same)
          congr 1
          funext symbol
          exact slot_eq_of_commit_eq spec ok leftKnown rightKnown symbol
            (fun known otherKnown nodeEq => induction symbol known otherKnown nodeEq)
            (congrFun slots symbol)

theorem eq_of_rootItem_eq (leftKnown : left = .empty ∨ Known scope left)
    (rightKnown : right = .empty ∨ Known scope right)
    (same : rootItem sha3Bin left = rootItem sha3Bin right) : left = right := by
  rcases leftKnown with rfl | leftKnown
  · rcases rightKnown with rfl | rightKnown
    · rfl
    · rw [rootItem_canonical rightKnown.canonical] at same
      exact (spec.ne_nil _ (Item.str.inj same).symm).elim
  · rcases rightKnown with rfl | rightKnown
    · rw [rootItem_canonical leftKnown.canonical] at same
      exact (spec.ne_nil _ (Item.str.inj same)).elim
    · rw [rootItem_canonical leftKnown.canonical,
        rootItem_canonical rightKnown.canonical] at same
      exact eq_of_nodeItem_eq spec ok leftKnown rightKnown
        (nodeItem_eq_of_hash_eq spec ok leftKnown rightKnown (Item.str.inj same))

end Injective

end Trees

/-! ### Listing the nodes -/

/-- The nodes of a tree. -/
def parts : PathTree → List PathTree
  | .empty => []
  | .value _ => []
  | .short path child => .short path child :: parts child
  | .full children => .full children :: (List.finRange 17).flatMap fun i => parts (children i)

theorem parts_subset {whole tree : PathTree} (part : Part whole tree) :
    parts tree ⊆ parts whole := by
  induction part with
  | whole => exact List.Subset.refl _
  | child _ induction => exact List.Subset.trans (List.subset_cons_self _ _) induction
  | slot symbol _ induction =>
      refine List.Subset.trans (fun tree member => ?_) induction
      exact List.mem_cons_of_mem _ (List.mem_flatMap.mpr ⟨symbol, List.mem_finRange _, member⟩)

/-- The strings hashed for the nodes of the trees. -/
def encodings (sha3Bin : Bytes → Bytes) (trees : List PathTree) : List Bytes :=
  ((trees.flatMap parts).map fun tree => (nodeItem sha3Bin tree).encode).dedup

theorem mem_encodings {sha3Bin : Bytes → Bytes} {scope : Scope} {trees : List PathTree}
    (covered : ∀ tree ∈ scope.trees, tree ∈ trees) {data : Bytes}
    (member : data ∈ nodeEncodings sha3Bin scope) : data ∈ encodings sha3Bin trees := by
  obtain ⟨tree, ⟨canonical, -, whole, inside, part⟩, rfl⟩ := member
  have own : tree ∈ parts tree := by
    cases tree with
    | empty => exact canonical.elim
    | value content => exact canonical.elim
    | short path child => exact List.mem_cons_self
    | full children => exact List.mem_cons_self
  refine List.mem_dedup.mpr (List.mem_map_of_mem ?_)
  exact List.mem_flatMap.mpr ⟨whole, covered whole inside, parts_subset part own⟩

/-- It suffices that the nodes of the listed trees have distinct hashes. -/
theorem sha3Spec_trees {sha3Bin : Bytes → Bytes} {scope : Scope}
    (lengths : ∀ data, (sha3Bin data).length = 32) (trees : List PathTree)
    (covered : ∀ tree ∈ scope.trees, tree ∈ trees)
    (distinct : ((encodings sha3Bin trees).map sha3Bin).Nodup) :
    Sha3Spec sha3Bin (nodeEncodings sha3Bin scope) :=
  sha3Spec_listed lengths _ (fun _ => mem_encodings covered) distinct

end Thelonious
