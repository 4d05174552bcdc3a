import Thelonious.Trie.Stored

/-!
# Reading and inserting

`getState` and `InsertState` do to a stored tree what `Patricia.get` and
`Patricia.insert` do to the tree.
-/

namespace Thelonious

open Radix Radix.Patricia

section Nodes

variable {sha3Bin : Bytes → Bytes} {reread : Bool} {node : Value}

theorem represents_short {path : List Nibble} {child : PathTree}
    (represents : node.Represents reread (nodeItem sha3Bin (.short path child))) :
    node.len = 2 ∧ (node.get 0).asStr = compactPath path ∧
      (node.get 1).Represents reread (commit sha3Bin child) := by
  obtain ⟨values, rfl, represent⟩ := represents_list_iff.mp represents
  cases represent with
  | cons head tail =>
      cases tail with
      | cons second rest =>
          cases rest with
          | nil => exact ⟨rfl, head.asStr_eq, second⟩

theorem represents_full {children : Nibble → PathTree}
    (represents : node.Represents reread (nodeItem sha3Bin (.full children))) :
    node.len = 17 ∧
      ∀ i : Nibble, (node.get i).Represents reread (commit sha3Bin (children i)) := by
  obtain ⟨values, rfl, length, slots⟩ := represents_ofFn_iff.mp represents
  exact ⟨length, slots⟩

/-- A branch node has no nil slots, so it is copied as it is. -/
theorem copySlots_of_represents {children : Nibble → PathTree}
    (represents : node.Represents reread (nodeItem sha3Bin (.full children))) :
    (Trie.copySlots node).length = 17 ∧
      ∀ i : Nibble, (Trie.copySlots node).getD i .nil = node.get i := by
  obtain ⟨_, slots⟩ := represents_full represents
  refine ⟨by simp [Trie.copySlots], fun i => ?_⟩
  have bound : i.val < (Trie.copySlots node).length := by simp [Trie.copySlots]
  rw [List.getD_eq_getElem _ _ bound]
  simp [Trie.copySlots, (slots i).isNil_eq]

end Nodes

/-- Reading a slice with one slot replaced. -/
theorem getD_set {slots : List Value} (length : slots.length = 17) (child : Value)
    (symbol i : Nibble) :
    (slots.set symbol child).getD i .nil =
      Function.update (fun i : Nibble => slots.getD i .nil) symbol child i := by
  have bound : i.val < slots.length := by rw [length]; exact i.isLt
  rw [List.getD_eq_getElem _ _ (by simpa using bound), List.getElem_set]
  by_cases same : i = symbol
  · subst same
    simp
  · rw [Function.update_of_ne same, if_neg (fun eq => same (Fin.ext eq.symm)),
      List.getD_eq_getElem _ _ bound]

section Operations

variable {sha3Bin : Bytes → Bytes} {reread : Bool} {scope : Scope} {db : Database}
variable {view : View} [Reliable sha3Bin db view]

variable (sha3Bin reread scope) in
/-- `reference` leads to the tree, all of whose nodes are stored. -/
def Points (source : Bytes → Option Value) (reference : Value) (tree : PathTree) : Prop :=
  (tree = .empty ∧ reference.Represents reread (.str [])) ∨
    (Known scope tree ∧ Refers sha3Bin reread source reference tree ∧
      Stored sha3Bin reread source tree)

variable {cache : Cache} {reference value : Value} {source : Bytes → Option Value}
  {child : PathTree} {children : Nibble → PathTree}

theorem Held.points {tree : PathTree} (held : Held sha3Bin reread source reference tree)
    (known : Known scope tree) : Points sha3Bin reread scope source reference tree :=
  .inr ⟨known, held.refers known.canonical, held.stored⟩

theorem Points.empty (points : Points sha3Bin reread scope source reference .empty) :
    reference.Represents reread (.str []) := by
  rcases points with ⟨_, represents⟩ | ⟨known, _⟩
  · exact represents
  · exact known.canonical.elim

theorem Points.not_value {content : Bytes}
    (points : Points sha3Bin reread scope source reference (.value content)) : False := by
  rcases points with ⟨isEmpty, _⟩ | ⟨known, _⟩
  · cases isEmpty
  · exact known.canonical

/-- A slot before the last one leads to its tree. -/
theorem Held.points_slot {symbol : Nibble} (notEnd : symbol ≠ 16)
    (known : Known scope (.full children))
    (held : Held sha3Bin reread source value (children symbol)) :
    Points sha3Bin reread scope source value (children symbol) := by
  rcases known.slot_cases symbol with isEmpty | ⟨_, childKnown⟩ | ⟨isEnd, _⟩
  · have represents := held.represents
    rw [isEmpty] at represents ⊢
    exact .inl ⟨rfl, represents⟩
  · exact held.points childKnown
  · exact (notEnd isEnd).elim

variable (sha3Bin reread scope db view) in
/-- An edge whose node has been read: its path and its child. -/
structure OpenShort (cache : Cache) (reference node : Value) (next : Cache) (path : List Nibble)
    (child : PathTree) : Prop where
  known : Known scope (.short path child)
  nonempty : ¬ (reference.isNil ∨ reference.len = 0)
  got : Trie.getNode db cache reference = some (node, next)
  evolves : Evolves sha3Bin reread scope db cache next
  length : node.len = 2
  textEq : (node.get 0).asStr = compactPath path
  pathEq : compactDecode (node.get 0).asStr = some path
  held : Held sha3Bin reread (view next) (node.get 1) child

variable (sha3Bin reread scope db view) in
/-- A branching whose node has been read: its slots. -/
structure OpenFull (cache : Cache) (reference node : Value) (next : Cache)
    (children : Nibble → PathTree) : Prop where
  known : Known scope (.full children)
  nonempty : ¬ (reference.isNil ∨ reference.len = 0)
  got : Trie.getNode db cache reference = some (node, next)
  evolves : Evolves sha3Bin reread scope db cache next
  length : node.len = 17
  copied : (Trie.copySlots node).length = 17
  same : ∀ i : Nibble, (Trie.copySlots node).getD i .nil = node.get i
  held : ∀ i : Nibble, Held sha3Bin reread (view next) (node.get i) (children i)

variable {node : Value} {next : Cache} {path : List Nibble}

omit [Reliable sha3Bin db view] in
theorem OpenShort.fewer
    (edge : OpenShort sha3Bin reread scope db view cache reference node next path child)
    {below : List Nibble} {fuel : Nat} (enough : (path ++ below).length < fuel + 1) :
    below.length < fuel := by
  have positive := List.length_pos_iff.mpr edge.known.canonical.path_ne_nil
  rw [List.length_append] at enough
  omega

variable (spec : Sha3Spec sha3Bin (nodeEncodings sha3Bin scope)) (ok : scope.Ok)
include spec ok

variable (db) in
theorem open_short
    (points : Points sha3Bin reread scope (view cache) reference (.short path child)) :
    ∃ node next, OpenShort sha3Bin reread scope db view cache reference node next path child := by
  obtain ⟨isEmpty, _⟩ | ⟨known, refers, stored⟩ := points
  · cases isEmpty
  obtain ⟨node, next, got, represents, evolves⟩ := getNode_of_refers db spec known refers
  obtain ⟨length, textEq, childRepresents⟩ := represents_short represents
  refine ⟨node, next, known, refers.nonempty spec known.canonical, got, evolves, length, textEq, ?_,
    childRepresents, evolves.stored spec ok known.child stored.2⟩
  rw [textEq, compactDecode_compactPath (Canonical.pathOk known.canonical)]

variable (db) in
theorem open_full (points : Points sha3Bin reread scope (view cache) reference (.full children)) :
    ∃ node next, OpenFull sha3Bin reread scope db view cache reference node next children := by
  obtain ⟨isEmpty, _⟩ | ⟨known, refers, stored⟩ := points
  · cases isEmpty
  obtain ⟨node, next, got, represents, evolves⟩ := getNode_of_refers db spec known refers
  obtain ⟨length, slots⟩ := represents_full represents
  obtain ⟨copied, same⟩ := copySlots_of_represents represents
  exact ⟨node, next, known, refers.nonempty spec known.canonical, got, evolves, length, copied,
    same,
    fun i => ⟨slots i, evolves.stored spec ok (known.slot i) (stored.2 i)⟩⟩

/-- The slots after one of them has been replaced. -/
theorem OpenFull.held_set
    (branching : OpenFull sha3Bin reread scope db view cache reference node next children)
    {last : Cache} (further : Evolves sha3Bin reread scope db next last) {slot : Value}
    {tree : PathTree}
    (slotHeld : Held sha3Bin reread (view last) slot tree) (symbol i : Nibble) :
    Held sha3Bin reread (view last) (((Trie.copySlots node).set symbol slot).getD i .nil)
      (Function.update children symbol tree i) := by
  rw [getD_set branching.copied]
  by_cases isSlot : i = symbol
  · subst isSlot
    simpa using slotHeld
  · rw [Function.update_of_ne isSlot, Function.update_of_ne isSlot, branching.same i]
    exact further.held spec ok (branching.known.slot i) (branching.held i)

/-! ### Reading -/

variable (db) in
theorem getState_eq_get {tree : PathTree} {key : List Nibble} {fuel : Nat} {cache : Cache}
    {reference : Value} (enough : key.length < fuel) (terminated : Terminated 16 key)
    (points : Points sha3Bin reread scope (view cache) reference tree) :
    ∃ value next, Trie.getState db fuel cache reference key = some (value, next) ∧
      value.asStr = (tree.get key).getD [] ∧
      Evolves sha3Bin reread scope db cache next := by
  induction tree generalizing key fuel cache reference with
  | empty =>
      obtain ⟨nibble, rest, less, rfl, rfl, -⟩ := terminated.exists_step enough
      refine ⟨reference, cache, ?_, points.empty.asStr_eq, .refl⟩
      simp [Trie.getState, points.empty.len_eq]
  | value content => exact points.not_value.elim
  | short path child induction =>
      obtain ⟨node, next, edge⟩ := open_short db spec ok points
      obtain ⟨nibble, rest, less, keyEq, rfl, -⟩ := terminated.exists_step enough
      have unfolded : Trie.getState db (less + 1) cache reference key =
          if path <+: key then Trie.getState db less next (node.get 1) (key.drop path.length)
          else some (.str [], next) := by
        rw [keyEq, Trie.getState, if_neg edge.nonempty]
        simp [edge.got, edge.length, edge.pathEq]
      rw [unfolded]
      by_cases starts : path <+: key
      · rw [if_pos starts]
        obtain ⟨below, rfl⟩ := starts
        rw [List.drop_left, get_short_append]
        have fewer := edge.fewer enough
        rcases edge.known.short_cases with ⟨pathTerminated, _, content, rfl, _⟩ |
          ⟨_, interior, _, childKnown⟩
        · obtain rfl := pathTerminated.append_eq_nil terminated
          obtain ⟨less, rfl⟩ := Nat.exists_eq_add_one.mpr fewer
          refine ⟨node.get 1, next, rfl, ?_, edge.evolves⟩
          simpa [Patricia.get] using edge.held.represents.asStr_eq
        · obtain ⟨value, last, read, valueEq, further⟩ := induction fewer
            ((terminated_append_iff interior).mp terminated) (edge.held.points childKnown)
          exact ⟨value, last, read, valueEq, edge.evolves.trans further⟩
      · rw [if_neg starts, get_short_of_not_starts _ starts]
        exact ⟨.str [], next, rfl, rfl, edge.evolves⟩
  | full children induction =>
      obtain ⟨node, next, branching⟩ := open_full db spec ok points
      obtain ⟨nibble, rest, less, rfl, rfl, fewer⟩ := terminated.exists_step enough
      have unfolded : Trie.getState db (less + 1) cache reference (nibble :: rest) =
          Trie.getState db less next (node.get nibble) rest := by
        rw [Trie.getState, if_neg branching.nonempty]
        simp [branching.got, branching.length]
      rw [unfolded, Patricia.get]
      rcases terminated with ⟨rfl, rfl⟩ | ⟨notEnd, terminated⟩
      · obtain ⟨less, rfl⟩ := Nat.exists_eq_add_one.mpr fewer
        refine ⟨node.get (16 : Nibble), next, rfl, ?_, branching.evolves⟩
        have represents := (branching.held 16).represents
        rcases branching.known.slot_cases 16 with isEmpty | ⟨notEnd, _⟩ | ⟨_, _, content, isValue,
          _⟩
        · rw [isEmpty] at represents ⊢
          exact represents.asStr_eq
        · exact (notEnd rfl).elim
        · rw [isValue] at represents ⊢
          simpa [Patricia.get] using represents.asStr_eq
      · obtain ⟨value, last, read, valueEq, further⟩ := induction nibble fewer terminated
          ((branching.held nibble).points_slot notEnd branching.known)
        exact ⟨value, last, read, valueEq, branching.evolves.trans further⟩

/-! ### Inserting -/

omit spec ok in
theorem matchingNibbleLength_append (common left right : List Nibble)
    (diverge : ∀ a b, left.head? = some a → right.head? = some b → a ≠ b) :
    matchingNibbleLength (common ++ left) (common ++ right) = common.length := by
  induction common with
  | nil =>
      cases left with
      | nil => simp [matchingNibbleLength]
      | cons a lefts =>
          cases right with
          | nil => simp [matchingNibbleLength]
          | cons b rights => simp [matchingNibbleLength, diverge a b rfl rfl]
  | cons symbol common induction => simp [matchingNibbleLength, induction]

variable (db) in
/-- Inserting below an empty slot: the two calls that expand an edge. -/
private theorem insertState_empty {rest : List Nibble} (fuel : Nat)
    (known : rest ≠ [] → Known scope (.short rest child))
    (held : Held sha3Bin reread (view cache) value child) :
    Yields sha3Bin reread scope db view cache
      (Trie.insertState sha3Bin db (fuel + 1) cache (.str []) rest value)
      (joinShort rest child) := by
  cases rest with
  | nil => exact ⟨value, cache, rfl, .refl, held⟩
  | cons head tail =>
      simpa [Trie.insertState, joinShort] using
        putShort_of_known spec ok (known (by simp)) held

omit spec ok in
/-- The slice `InsertState` builds for a branching with two edges. -/
private theorem getD_scaledSlice (left right : Nibble) (leftNode rightNode : Value)
    (i : Nibble) :
    (Trie.scaledSlice left leftNode right rightNode).getD i .nil =
      Function.update (Function.update (fun _ => Value.str []) left leftNode)
        right rightNode i := by
  have bound : i.val < (Trie.scaledSlice left leftNode right rightNode).length := by
    simp [Trie.scaledSlice]
  rw [List.getD_eq_getElem _ _ bound]
  simp only [Trie.scaledSlice, List.getElem_set, List.getElem_replicate]
  by_cases isRight : i = right
  · subst isRight
    simp
  · rw [Function.update_of_ne isRight, if_neg (fun same => isRight (Fin.ext same.symm))]
    by_cases isLeft : i = left
    · subst isLeft
      simp
    · rw [Function.update_of_ne isLeft, if_neg (fun same => isLeft (Fin.ext same.symm))]

private theorem putFork {left right : Nibble} {leftNode rightNode : Value}
    {leftChild rightChild : PathTree} (known : Known scope (fork left right leftChild rightChild))
    (leftHeld : Held sha3Bin reread (view cache) leftNode leftChild)
    (rightHeld : Held sha3Bin reread (view cache) rightNode rightChild) :
    Yields sha3Bin reread scope db view cache
      (some (Trie.put sha3Bin cache
        (.list (Trie.scaledSlice left leftNode right rightNode))))
      (fork left right leftChild rightChild) := by
  refine putFull_of_known spec ok known (by simp [Trie.scaledSlice]) fun i => ?_
  rw [getD_scaledSlice]
  by_cases isRight : i = right
  · subst isRight
    simpa using rightHeld
  · rw [Function.update_of_ne isRight, Function.update_of_ne isRight]
    by_cases isLeft : i = left
    · subst isLeft
      simpa using leftHeld
    · rw [Function.update_of_ne isLeft, Function.update_of_ne isLeft]
      exact ⟨.of_str [], trivial⟩

omit spec ok in
private theorem known_of_slot {children : Nibble → PathTree} {symbol : Nibble}
    {child : PathTree} (known : Known scope (.full children))
    (slotEq : children symbol = child) (nonempty : child ≠ .empty)
    (notValue : ∀ content, child ≠ .value content) : Known scope child := by
  subst slotEq
  rcases known.slot_cases symbol with isEmpty | ⟨_, childKnown⟩ | ⟨_, _, content, isValue, _⟩
  · exact (nonempty isEmpty).elim
  · exact childKnown
  · exact (notValue content isValue).elim

omit spec ok in
private theorem known_of_joinShort {path : List Nibble} {children : Nibble → PathTree}
    (known : Known scope (joinShort path (.full children))) :
    Known scope (.full children) := by
  unfold joinShort at known
  split at known
  · exact known
  · rcases known.short_cases with ⟨_, _, content, isValue, _⟩ | ⟨_, _, _, childKnown⟩
    · cases isValue
    · exact childKnown

variable (db) in
/-- An edge that is left in the middle becomes a branching. -/
private theorem insertState_fork {pathRest keyRest : List Nibble} {left right : Nibble}
    {content : Bytes} (fuel : Nat) (different : left ≠ right)
    (known : Known scope (fork left right (joinShort pathRest child)
      (joinShort keyRest (.value content)))) (held : Held sha3Bin reread (view cache) value child) :
    Yields sha3Bin reread scope db view cache
      (do
        let (oldNode, cache) ←
          Trie.insertState sha3Bin db (fuel + 1) cache (.str []) pathRest value
        let (newNode, cache) ←
          Trie.insertState sha3Bin db (fuel + 1) cache (.str []) keyRest (.str content)
        pure (Trie.put sha3Bin cache
          (.list (Trie.scaledSlice left oldNode right newNode))))
      (fork left right (joinShort pathRest child) (joinShort keyRest (.value content))) := by
  have leftSlot : Function.update (Function.update (fun _ => (.empty : PathTree)) left
      (joinShort pathRest child)) right (joinShort keyRest (.value content)) left =
        joinShort pathRest child := by
    rw [Function.update_of_ne different, Function.update_self]
  have rightSlot : Function.update (Function.update (fun _ => (.empty : PathTree)) left
      (joinShort pathRest child)) right (joinShort keyRest (.value content)) right =
        joinShort keyRest (.value content) := Function.update_self ..
  have leftKnown : pathRest ≠ [] → Known scope (.short pathRest child) := fun nonempty =>
    known_of_slot known (leftSlot.trans (if_neg nonempty)) (by simp) (by simp)
  have rightKnown : keyRest ≠ [] → Known scope (.short keyRest (.value content)) :=
    fun nonempty =>
      known_of_slot known (rightSlot.trans (if_neg nonempty)) (by simp) (by simp)
  obtain ⟨oldNode, second, oldEq, firstEvolves, oldHeld⟩ :=
    insertState_empty db spec ok fuel leftKnown held
  obtain ⟨newNode, third, newEq, secondEvolves, newHeld⟩ :=
    insertState_empty db spec ok fuel rightKnown (held_value (view second) content)
  have isChild := known.slot left
  rw [leftSlot] at isChild
  rw [oldEq]
  simp only [Option.bind_eq_bind, Option.bind_some, newEq]
  exact (putFork spec ok known (secondEvolves.held spec ok isChild oldHeld) newHeld).after
    (firstEvolves.trans secondEvolves)

section Edge

variable {content : Bytes} {fuel : Nat}
  (edge : OpenShort sha3Bin reread scope db view cache reference node next path child)
include edge

/-- The key ends where the edge ends: its value is replaced. -/
private theorem insertState_same (result : Known scope (.short path (.value content))) :
    Yields sha3Bin reread scope db view cache
      (Trie.insertState sha3Bin db (fuel + 1) cache reference path (.str content))
      (.short path (.value content)) := by
  obtain ⟨nibble, rest, rfl⟩ := List.exists_cons_of_ne_nil edge.known.canonical.path_ne_nil
  have unfolded : Trie.insertState sha3Bin db (fuel + 1) cache reference (nibble :: rest)
      (.str content) = Trie.putShort sha3Bin next (nibble :: rest) (.str content) := by
    rw [Trie.insertState, if_neg edge.nonempty]
    simp [edge.got, edge.length, edge.pathEq]
  rw [unfolded]
  exact (putShort_of_known spec ok result (held_value (view next) content)).after edge.evolves

/-- The key continues below the edge. -/
private theorem insertState_below {below : List Nibble} {tree : PathTree}
    (belowNonempty : below ≠ []) (result : Known scope (.short path tree))
    (lower : Yields sha3Bin reread scope db view next
      (Trie.insertState sha3Bin db fuel next (node.get 1) below (.str content)) tree) :
    Yields sha3Bin reread scope db view cache
      (Trie.insertState sha3Bin db (fuel + 1) cache reference (path ++ below) (.str content))
      (.short path tree) := by
  have matching : matchingNibbleLength (path ++ below) path = path.length := by
    have whole := matchingNibbleLength_append path below [] (by simp)
    rwa [List.append_nil] at whole
  obtain ⟨child, last, insertEq, further, childHeld⟩ := lower
  have pathNonempty := edge.known.canonical.path_ne_nil
  obtain ⟨nibble, rest, keyEq⟩ := List.exists_cons_of_ne_nil
    (List.append_ne_nil_of_left_ne_nil pathNonempty below)
  have unfolded : Trie.insertState sha3Bin db (fuel + 1) cache reference (path ++ below)
      (.str content) = Trie.putShort sha3Bin last path child := by
    rw [keyEq, Trie.insertState, if_neg edge.nonempty, ← keyEq]
    simp [edge.got, edge.length, edge.pathEq, matching, insertEq, belowNonempty, pathNonempty]
  rw [unfolded]
  exact (putShort_of_known spec ok result childHeld).after (edge.evolves.trans further)

/-- The key leaves the edge: it becomes a branching below the common part. -/
private theorem insertState_split {common pathRest keyRest : List Nibble}
    {left right : Nibble} (different : left ≠ right)
    (pathSplit : path = common ++ left :: pathRest)
    (result : Known scope (joinShort common (fork left right (joinShort pathRest child)
      (joinShort keyRest (.value content))))) :
    Yields sha3Bin reread scope db view cache
      (Trie.insertState sha3Bin db (fuel + 2) cache reference
        (common ++ right :: keyRest) (.str content))
      (joinShort common (fork left right (joinShort pathRest child)
        (joinShort keyRest (.value content)))) := by
  have matching : matchingNibbleLength (common ++ right :: keyRest) path =
      common.length := by
    rw [pathSplit]
    exact matchingNibbleLength_append common (right :: keyRest) (left :: pathRest)
      (by simpa using Ne.symm different)
  have leaves : path ≠ common ++ right :: keyRest := by
    rw [pathSplit]
    simp [different]
  have longer : common.length ≠ path.length := by
    rw [pathSplit, List.length_append, List.length_cons]
    omega
  have pathDrop : path.drop common.length = left :: pathRest := by
    rw [pathSplit, List.drop_left]
  obtain ⟨newHash, last, forkEq, further, forkHeld⟩ :=
    insertState_fork db spec ok fuel different (known_of_joinShort result) edge.held
  obtain ⟨nibble, rest, keyEq⟩ : ∃ nibble rest,
      common ++ right :: keyRest = nibble :: rest :=
    List.exists_cons_of_ne_nil (by simp)
  have unfolded : Trie.insertState sha3Bin db (fuel + 2) cache reference
      (common ++ right :: keyRest) (.str content) =
        if common.length = 0 then some (newHash, last)
        else Trie.putShort sha3Bin last common newHash := by
    obtain ⟨⟨oldNode, second⟩, oldEq, forkEq⟩ := Option.bind_eq_some_iff.mp forkEq
    obtain ⟨⟨newNode, third⟩, newEq, forkEq⟩ := Option.bind_eq_some_iff.mp forkEq
    have putEq := Option.some.inj forkEq
    rw [keyEq, Trie.insertState, if_neg edge.nonempty, ← keyEq]
    simp [edge.got, edge.length, edge.pathEq, matching, leaves, longer, pathDrop, oldEq, newEq,
      putEq]
  rw [unfolded]
  by_cases isEmpty : common = []
  · subst isEmpty
    exact ⟨newHash, last, rfl, edge.evolves.trans further, forkHeld⟩
  · rw [if_neg (by simpa using isEmpty)]
    rw [joinShort, if_neg isEmpty] at result ⊢
    exact (putShort_of_known spec ok result forkHeld).after (edge.evolves.trans further)

end Edge

variable (db) in
theorem insertState_eq_insert {tree : PathTree} {key : List Nibble} {content : Bytes}
    {fuel : Nat} {cache : Cache} {reference : Value} (enough : key.length < fuel)
    (terminated : Terminated 16 key)
    (points : Points sha3Bin reread scope (view cache) reference tree)
    (result : Known scope (tree.insert key content)) :
    Yields sha3Bin reread scope db view cache
      (Trie.insertState sha3Bin db fuel cache reference key (.str content))
      (tree.insert key content) := by
  induction tree generalizing key fuel cache reference with
  | empty =>
      obtain ⟨nibble, rest, less, rfl, rfl, -⟩ := terminated.exists_step enough
      simpa [Trie.insertState, points.empty.len_eq, Patricia.insert, joinShort] using
        putShort_of_known spec ok (by simpa [Patricia.insert, joinShort] using result)
          (held_value (view cache) content)
  | value old => exact points.not_value.elim
  | short path child induction =>
      obtain ⟨node, next, edge⟩ := open_short db spec ok points
      obtain ⟨-, -, less, -, rfl, -⟩ := terminated.exists_step enough
      rcases splitCommon_cases path key with
        ⟨below, rfl, split⟩ | ⟨symbol, more, pathLonger, _⟩ |
        ⟨common, left, right, pathRest, keyRest, different, pathSplit, rfl, split⟩
      · have insertEq : (short path child).insert (path ++ below) content =
            joinShort path (child.insert below content) := by
          simp [Patricia.insert, split]
        rw [insertEq, joinShort, if_neg edge.known.canonical.path_ne_nil] at result ⊢
        rcases edge.known.short_cases with ⟨pathTerminated, _, old, rfl, _⟩ |
          ⟨_, interior, _, childKnown⟩
        · obtain rfl := pathTerminated.append_eq_nil terminated
          rw [List.append_nil]
          exact insertState_same spec ok edge result
        · have belowTerminated := (terminated_append_iff interior).mp terminated
          have childResult : Known scope (child.insert below content) := by
            rcases result.short_cases with ⟨pathTerminated, _⟩ | ⟨_, _, _, childResult⟩
            · exact (interior pathTerminated.mem).elim
            · exact childResult
          exact insertState_below spec ok edge belowTerminated.ne_nil result
            (induction (edge.fewer enough) belowTerminated (edge.held.points childKnown)
              childResult)
      · exact (Canonical.not_past (pathLonger ▸ edge.known.canonical) terminated).elim
      · have insertEq : (short path child).insert (common ++ right :: keyRest) content =
            joinShort common (fork left right (joinShort pathRest child)
              (joinShort keyRest (.value content))) := by
          simp [Patricia.insert, split]
        rw [insertEq] at result ⊢
        obtain ⟨less, rfl⟩ : ∃ n, less = n + 1 := ⟨less - 1, by
          rw [List.length_append, List.length_cons] at enough
          omega⟩
        exact insertState_split spec ok edge different pathSplit result
  | full children induction =>
      obtain ⟨node, next, branching⟩ := open_full db spec ok points
      obtain ⟨nibble, rest, less, rfl, rfl, fewer⟩ := terminated.exists_step enough
      have lower : Yields sha3Bin reread scope db view next
          (Trie.insertState sha3Bin db less next (node.get nibble) rest (.str content))
          ((children nibble).insert rest content) := by
        rcases terminated with ⟨rfl, rfl⟩ | ⟨notEnd, terminated⟩
        · have leaf : (children 16).insert [] content = .value content := by
            rcases branching.known.slot_cases 16 with isEmpty | ⟨notEnd, _⟩ | ⟨_, _, _, isValue, _⟩
            · simp [isEmpty, Patricia.insert, joinShort]
            · exact (notEnd rfl).elim
            · simp [isValue, Patricia.insert, joinShort]
          obtain ⟨less, rfl⟩ := Nat.exists_eq_add_one.mpr fewer
          rw [leaf]
          exact ⟨.str content, next, rfl, .refl, held_value _ content⟩
        · have childResult : Known scope ((children nibble).insert rest content) := by
            have rooted : Rooted 16 (children nibble) := branching.known.canonical.1 nibble notEnd
            have canonical := canonical_insert rooted terminated content
            exact known_of_slot result (Function.update_self ..) canonical.ne_empty
              (fun value isValue => by rw [isValue] at canonical; exact canonical)
          exact induction nibble fewer terminated
            ((branching.held nibble).points_slot notEnd branching.known) childResult
      obtain ⟨child, last, insertEq, further, childHeld⟩ := lower
      have unfolded : Trie.insertState sha3Bin db (less + 1) cache reference (nibble :: rest)
          (.str content) =
            some (Trie.put sha3Bin last (.list ((Trie.copySlots node).set nibble child))) := by
        rw [Trie.insertState, if_neg branching.nonempty]
        simp [branching.got, branching.length, insertEq]
      rw [unfolded]
      exact (putFull_of_known spec ok result (by simpa using branching.copied)
        (branching.held_set spec ok further childHeld nibble)).after
          (branching.evolves.trans further)

end Operations

end Thelonious
