import Thelonious.Trie.RootContent

/-!
# Sync and Undo

The cache of a trie and its database fit together: what the cache holds for a
known node is that node, and clean nodes are in the database too.  This is kept
by every access, by `Commit`, which may empty the cache, and by `Undo`.  It
follows that `Sync` makes the current tree readable from the database alone, and
that `Undo` goes back to the tree of the last `Sync`.

Nodes read back from the database differ in their Go types from those put into
the cache, so everything here is about representations.  The value `"\x00"` is
excluded: it does not survive being encoded and decoded twice.
-/

namespace Thelonious

open Radix Radix.Patricia

variable {sha3Bin : Bytes → Bytes} {scope : Scope} {db : Database}

/-! ### Cache and database -/

variable (sha3Bin scope) in
/-- The cache fits the database. -/
structure Fitting (db : Database) (cache : Cache) : Prop where
  represents : ∀ tree node, Known scope tree →
    cache.nodes.lookup (sha3Bin (nodeItem sha3Bin tree).encode) = some node →
      node.value.Represents true (nodeItem sha3Bin tree)
  clean : ∀ tree node, Known scope tree →
    cache.nodes.lookup (sha3Bin (nodeItem sha3Bin tree).encode) = some node →
      node.dirty = false → Keeps sha3Bin true (Cache.new.source db) tree
  flagged : ∀ key node, cache.isDirty = false → cache.nodes.lookup key = some node →
    node.dirty = false

theorem fitting_new (db : Database) : Fitting sha3Bin scope db .new where
  represents := fun _ _ _ found => by cases found
  clean := fun _ _ _ found => by cases found
  flagged := fun _ _ _ found => by cases found

/-- What the database keeps is not hidden by the cache. -/
theorem Fitting.keeps {cache : Cache} (fitting : Fitting sha3Bin scope db cache)
    {tree : PathTree} (known : Known scope tree)
    (keeps : Keeps sha3Bin true (Cache.new.source db) tree) :
    Keeps sha3Bin true (cache.source db) tree := by
  cases found : cache.nodes.lookup (sha3Bin (nodeItem sha3Bin tree).encode) with
  | none =>
      obtain ⟨value, read, represents⟩ := keeps
      refine ⟨value, ?_, represents⟩
      simpa [Cache.source, found, Cache.new] using read
  | some node =>
      exact ⟨node.value, by simp [Cache.source, found], fitting.represents tree node known found⟩

section Accesses

variable (spec : Sha3Spec sha3Bin (nodeEncodings sha3Bin scope)) (ok : scope.Ok) {cache : Cache}
include spec ok

private theorem Fitting.insert (fitting : Fitting sha3Bin scope db cache) {added : PathTree}
    (addedKnown : Known scope added) (node : Node) (flag : Bool)
    (represents : node.value.Represents true (nodeItem sha3Bin added))
    (clean : node.dirty = false → Keeps sha3Bin true (Cache.new.source db) added)
    (flagged : flag = false → cache.isDirty = false ∧ node.dirty = false) :
    Fitting sha3Bin scope db
      ⟨cache.nodes.insert (sha3Bin (nodeItem sha3Bin added).encode) node, flag⟩ := by
  refine ⟨fun tree other known found => ?_, fun tree other known found isClean => ?_,
    fun key other notFlagged found => ?_⟩
  · by_cases same : sha3Bin (nodeItem sha3Bin tree).encode =
        sha3Bin (nodeItem sha3Bin added).encode
    · rw [same, AList.lookup_insert] at found
      rw [← Option.some.inj found, nodeItem_eq_of_hash_eq spec ok known addedKnown same]
      exact represents
    · rw [AList.lookup_insert_ne same] at found
      exact fitting.represents tree other known found
  · by_cases same : sha3Bin (nodeItem sha3Bin tree).encode =
        sha3Bin (nodeItem sha3Bin added).encode
    · rw [same, AList.lookup_insert] at found
      rw [← Option.some.inj found] at isClean
      have nodeEq := nodeItem_eq_of_hash_eq spec ok known addedKnown same
      simpa [Keeps, nodeEq] using clean isClean
    · rw [AList.lookup_insert_ne same] at found
      exact fitting.clean tree other known found isClean
  · by_cases same : key = sha3Bin (nodeItem sha3Bin added).encode
    · rw [same, AList.lookup_insert] at found
      rw [← Option.some.inj found]
      exact (flagged notFlagged).2
    · rw [AList.lookup_insert_ne same] at found
      exact fitting.flagged key other (flagged notFlagged).1 found

theorem CacheStep.fitting {next : Cache} (step : CacheStep sha3Bin true scope db cache next)
    (fitting : Fitting sha3Bin scope db cache) : Fitting sha3Bin scope db next := by
  cases step with
  | read known represents got =>
      rename_i value tree
      cases found : cache.nodes.lookup (sha3Bin (nodeItem sha3Bin tree).encode) with
      | some node =>
          simp only [Cache.get, found, Option.some.injEq, Prod.mk.injEq] at got
          rw [← got.2]
          exact fitting
      | none =>
          simp only [Cache.get, found] at got
          obtain ⟨read, readEq, got⟩ := Option.bind_eq_some_iff.mp got
          obtain ⟨rfl, rfl⟩ := Prod.mk.inj (Option.some.inj got)
          apply fitting.insert spec ok known _ _ represents
          · intro _
            exact ⟨read, by simpa [Cache.source, Cache.new] using readEq, represents⟩
          · intro notDirty
            exact ⟨notDirty, rfl⟩
  | put force known represents =>
      rename_i value tree
      by_cases hashed : 32 ≤ (encode value).length ∨ force
      · rw [Cache.putValue, if_pos hashed, represents.encode_eq]
        apply fitting.insert spec ok known _ _ represents
        · intro isClean
          cases isClean
        · intro notFlagged
          cases notFlagged
      · simpa [Cache.putValue, hashed] using fitting

theorem Evolves.fitting {next : Cache} (evolves : Evolves sha3Bin true scope db cache next)
    (fitting : Fitting sha3Bin scope db cache) : Fitting sha3Bin scope db next := by
  induction evolves with
  | refl => exact fitting
  | tail _ step induction => exact step.fitting spec ok induction

end Accesses

/-! ### Committing and undoing -/

/-- Values that survive being stored. -/
def Scope.NoZero (scope : Scope) : Prop :=
  ∀ pair ∈ scope.pairs, pair.2 ≠ [0]

private theorem compactPath_ne_zero {path : List Nibble} (ok : PathOk path) :
    compactPath path ≠ [0] := by
  intro isZero
  have read := compactDecode_compactPath ok
  have empty : compactDecode [0] = some [] := by decide
  rw [isZero, empty] at read
  exact ok.1 (Option.some.inj read).symm

section Committing

variable (spec : Sha3Spec sha3Bin (nodeEncodings sha3Bin scope)) (ok : scope.Ok)
  (noZero : scope.NoZero) {tree : PathTree}
include spec noZero

private theorem clean_commit (isChild : Child scope tree)
    (clean : Known scope tree → (nodeItem sha3Bin tree).Clean) : (commit sha3Bin tree).Clean := by
  rcases isChild with rfl | known | ⟨key, content, rfl, member⟩
  · intro isZero
    cases isZero
  · rw [commit_canonical known.canonical, Item.ref]
    split
    · intro isZero
      have length := spec.length_eq (nodeItem sha3Bin tree).encode
      rw [isZero] at length
      cases length
    · exact clean known
  · exact noZero _ member

theorem clean_nodeItem (known : Known scope tree) : (nodeItem sha3Bin tree).Clean := by
  induction tree with
  | empty => exact known.canonical.elim
  | value content => exact known.canonical.elim
  | short path child induction =>
      exact ⟨compactPath_ne_zero (Canonical.pathOk known.canonical),
        clean_commit spec noZero known.child induction, trivial⟩
  | full children induction =>
      refine (Item.allClean_iff _).mpr fun item member => ?_
      obtain ⟨symbol, rfl⟩ := (List.mem_ofFn' _ _).mp member
      exact clean_commit spec noZero (known.slot symbol) (induction symbol)

include ok

theorem Fitting.keeps_commit {cache : Cache} (fitting : Fitting sha3Bin scope db cache)
    (known : Known scope tree) (keeps : Keeps sha3Bin true (cache.source db) tree) :
    Keeps sha3Bin true (Cache.new.source (cache.commit db).1) tree := by
  have inDatabase : (∀ node, cache.nodes.lookup (sha3Bin (nodeItem sha3Bin tree).encode) =
      some node → node.dirty = false) → Keeps sha3Bin true (Cache.new.source db) tree := by
    intro allClean
    cases found : cache.nodes.lookup (sha3Bin (nodeItem sha3Bin tree).encode) with
    | some node => exact fitting.clean tree node known found (allClean node found)
    | none =>
        obtain ⟨value, read, represents⟩ := keeps
        refine ⟨value, ?_, represents⟩
        simpa [Cache.source, found, Cache.new] using read
  cases flag : cache.isDirty with
  | false =>
      simp only [Cache.commit, flag, Bool.false_eq_true, if_false]
      exact inDatabase fun node found => fitting.flagged _ node flag found
  | true =>
      have written := Cache.get_flush db cache.nodes.entries cache.nodes.nodupKeys
        (sha3Bin (nodeItem sha3Bin tree).encode)
      simp only [Cache.commit, flag, if_true]
      cases found : cache.nodes.lookup (sha3Bin (nodeItem sha3Bin tree).encode) with
      | none =>
          obtain ⟨value, read, represents⟩ := inDatabase (by simp [found])
          refine ⟨value, ?_, represents⟩
          have lookupEq : List.dlookup (sha3Bin (nodeItem sha3Bin tree).encode)
            cache.nodes.entries = none := found
          rw [lookupEq] at written
          simpa [Cache.source, Cache.new, written] using read
      | some node =>
          have lookupEq : List.dlookup (sha3Bin (nodeItem sha3Bin tree).encode)
            cache.nodes.entries = some node := found
          rw [lookupEq] at written
          cases dirtyEq : node.dirty with
          | false =>
              obtain ⟨value, read, represents⟩ := fitting.clean tree node known found dirtyEq
              refine ⟨value, ?_, represents⟩
              simpa [Cache.source, Cache.new, written, Option.filter, dirtyEq] using read
          | true =>
              obtain ⟨value, decoded, represents⟩ :=
                Item.newValueFromBytes_encode (clean_nodeItem spec noZero known)
                  (length_encode_nodeItem_lt spec ok known)
              refine ⟨value, ?_, represents⟩
              have encodeEq := (fitting.represents tree node known found).encode_eq
              simpa [Cache.source, Cache.new, written, Option.filter, dirtyEq, encodeEq]
                using decoded

theorem Fitting.commit {cache : Cache} (fitting : Fitting sha3Bin scope db cache) :
    Fitting sha3Bin scope (cache.commit db).1 (cache.commit db).2 := by
  have durable : ∀ tree node, Known scope tree →
      cache.nodes.lookup (sha3Bin (nodeItem sha3Bin tree).encode) = some node →
        Keeps sha3Bin true (Cache.new.source (cache.commit db).1) tree := by
    intro tree node known found
    exact fitting.keeps_commit spec ok noZero known
      ⟨node.value, by simp [Cache.source, found], fitting.represents tree node known found⟩
  cases flag : cache.isDirty with
  | false =>
      have unchanged : cache.commit db = (db, cache) := by simp [Cache.commit, flag]
      rw [unchanged]
      exact fitting
  | true =>
      by_cases many : 200 <
          (AssocMap.mapValues (fun node : Node => { node with dirty := false })
            cache.nodes).entries.length
      · have emptied : (cache.commit db).2 = .new := by
          simp [Cache.commit, flag, many, Cache.new]
        rw [emptied]
        exact fitting_new _
      · have cleaned : (cache.commit db).2 = ⟨AssocMap.mapValues
            (fun node : Node => { node with dirty := false }) cache.nodes, false⟩ := by
          simp [Cache.commit, flag, many]
        rw [cleaned]
        refine ⟨fun tree node known found => ?_, fun tree node known found _ => ?_,
          fun key node _ found => ?_⟩
        · rw [AssocMap.lookup_mapValues] at found
          obtain ⟨before, beforeFound, rfl⟩ := Option.map_eq_some_iff.mp found
          exact fitting.represents tree before known beforeFound
        · rw [AssocMap.lookup_mapValues] at found
          obtain ⟨before, beforeFound, _⟩ := Option.map_eq_some_iff.mp found
          exact durable tree before known beforeFound
        · rw [AssocMap.lookup_mapValues] at found
          obtain ⟨before, _, rfl⟩ := Option.map_eq_some_iff.mp found
          rfl

end Committing

theorem Fitting.undo {cache : Cache} (fitting : Fitting sha3Bin scope db cache) :
    Fitting sha3Bin scope db cache.undo := by
  have kept : ∀ key node, cache.undo.nodes.lookup key = some node →
      cache.nodes.lookup key = some node ∧ node.dirty = false := by
    intro key node found
    rw [Cache.undo, AssocMap.lookup_filterValues] at found
    obtain ⟨before, isClean⟩ := Option.filter_eq_some_iff.mp found
    exact ⟨before, by simpa using isClean⟩
  refine ⟨fun tree node known found => ?_, fun tree node known found isClean => ?_,
    fun key node _ found => (kept key node found).2⟩
  · exact fitting.represents tree node known (kept _ node found).1
  · exact fitting.clean tree node known (kept _ node found).1 isClean

/-! ### Runs -/

/-- The calls of a client of the trie. -/
inductive StoreOp where
  | update (call : Update) (storable : call.value.val ≠ [0])
  | get (key : Bytes)
  | sync
  | undo

/-- A trie together with its database. -/
structure Store where
  db : Database
  trie : Trie

namespace StoreOp

/-- The updates among the calls. -/
def updates (ops : List StoreOp) : List Update :=
  ops.filterMap fun
    | .update call _ => some call
    | _ => none

/-- The current tree and the one of the last `Sync`, after a call. -/
def applyTo (trees : PathTree × PathTree) : StoreOp → PathTree × PathTree
  | .update call _ => (trees.1.insert (compactHexDecode call.key) call.value.val, trees.2)
  | .get _ => trees
  | .sync => (trees.1, trees.1)
  | .undo => (trees.2, trees.2)

/-- The trees that the calls come to. -/
def reached (trees : PathTree × PathTree) : List StoreOp → List PathTree
  | [] => [trees.1]
  | op :: ops => trees.1 :: reached (op.applyTo trees) ops

theorem mem_reached_self (trees : PathTree × PathTree) (ops : List StoreOp) :
    trees.1 ∈ reached trees ops := by
  cases ops <;> exact List.mem_cons_self

theorem reached_subset_append (trees : PathTree × PathTree) (ops more : List StoreOp) :
    reached trees ops ⊆ reached trees (ops ++ more) := by
  induction ops generalizing trees with
  | nil => simpa [reached] using mem_reached_self trees more
  | cons op ops induction => exact List.cons_subset_cons _ (induction _)

theorem reached_subset_of_append (trees : PathTree × PathTree) (ops more : List StoreOp) :
    reached (ops.foldl applyTo trees) more ⊆ reached trees (ops ++ more) := by
  induction ops generalizing trees with
  | nil => exact List.Subset.refl _
  | cons op ops induction => exact List.Subset.trans (induction _) (List.subset_cons_self _ _)

theorem snd_foldl_applyTo {ops : List StoreOp} (noSync : .sync ∉ ops)
    (trees : PathTree × PathTree) : (ops.foldl applyTo trees).2 = trees.2 := by
  induction ops generalizing trees with
  | nil => rfl
  | cons op ops induction =>
      rw [List.mem_cons, not_or] at noSync
      rw [List.foldl_cons, induction noSync.2]
      cases op with
      | update call storable => rfl
      | get key => rfl
      | sync => exact (noSync.1 rfl).elim
      | undo => rfl

end StoreOp

namespace Store

def perform (sha3Bin : Bytes → Bytes) (store : Store) : StoreOp → Option Store
  | .update call _ => do
      let trie ← store.trie.update sha3Bin store.db call.key call.value
      return ⟨store.db, trie⟩
  | .get key => do
      let answer ← store.trie.get store.db key
      return ⟨store.db, answer.2⟩
  | .sync => some ⟨(store.trie.sync store.db).1, (store.trie.sync store.db).2⟩
  | .undo => some ⟨store.db, store.trie.undo⟩

def run (sha3Bin : Bytes → Bytes) (store : Store) (ops : List StoreOp) : Option Store :=
  ops.foldlM (perform sha3Bin) store

theorem run_append (sha3Bin : Bytes → Bytes) (store : Store) (ops more : List StoreOp) :
    store.run sha3Bin (ops ++ more) =
      (store.run sha3Bin ops).bind fun next => next.run sha3Bin more :=
  List.foldlM_append

theorem run_singleton (sha3Bin : Bytes → Bytes) (store : Store) (op : StoreOp) :
    store.run sha3Bin [op] = store.perform sha3Bin op := by
  simp [run]

/-- What `Get` answers. -/
def answer (store : Store) (key : Bytes) : Option Bytes :=
  (store.trie.get store.db key).map Prod.fst

/-- The trie a fresh `New(db, Root)` opens. -/
def reopened (store : Store) : Store :=
  ⟨store.db, .new store.trie.root⟩

end Store

variable (sha3Bin scope) in
/-- The trie stands for the first tree, and the second one can be read from the
database under the root that `Undo` returns to. -/
structure Coherent (store : Store) (trees : PathTree × PathTree) : Prop where
  current : Stands sha3Bin true scope (Cache.source store.db) store.trie trees.1
  saved : Stands sha3Bin true scope (Cache.source store.db) (.new store.trie.prevRoot) trees.2
  fitting : Fitting sha3Bin scope store.db store.trie.cache

theorem Stands.coherent_new {root : Value} {tree : PathTree}
    (opened : Stands sha3Bin true scope (Cache.source db) (.new root) tree) :
    Coherent sha3Bin scope ⟨db, .new root⟩ (tree, tree) :=
  ⟨opened, opened, fitting_new db⟩

section Runs

variable (spec : Sha3Spec sha3Bin (nodeEncodings sha3Bin scope)) (ok : scope.Ok)
  (noZero : scope.NoZero) {store : Store} {trees : PathTree × PathTree}
include spec ok

theorem Coherent.answer (coherent : Coherent sha3Bin scope store trees) (key : Bytes) :
    store.answer key = some ((trees.1.get (compactHexDecode key)).getD []) := by
  obtain ⟨cache, got, _⟩ := coherent.current.get store.db spec ok key
  rw [Store.answer, got]
  rfl

include noZero

theorem Coherent.sync (coherent : Coherent sha3Bin scope store trees) :
    Coherent sha3Bin scope
      ⟨(store.trie.sync store.db).1, (store.trie.sync store.db).2⟩ (trees.1, trees.1) := by
  have fitting := coherent.fitting.commit spec ok noZero
  have durable : ∀ tree, Known scope tree →
      Keeps sha3Bin true (store.trie.cache.source store.db) tree →
      Keeps sha3Bin true (Cache.new.source (store.trie.cache.commit store.db).1) tree :=
    fun tree known => coherent.fitting.keeps_commit spec ok noZero known
  exact {
    current := coherent.current.transfer rfl fun tree known keeps =>
      fitting.keeps known (durable tree known keeps)
    saved := coherent.current.transfer rfl durable
    fitting := fitting }

omit spec ok noZero in
theorem Coherent.undo {store : Store} {trees : PathTree × PathTree}
    (coherent : Coherent sha3Bin scope store trees) :
    Coherent sha3Bin scope ⟨store.db, store.trie.undo⟩ (trees.2, trees.2) where
  current := coherent.saved.transfer rfl fun _ known keeps =>
    coherent.fitting.undo.keeps known keeps
  saved := coherent.saved
  fitting := coherent.fitting.undo

theorem Coherent.perform (coherent : Coherent sha3Bin scope store trees) (op : StoreOp)
    (members : pairsOf (StoreOp.updates [op]) ⊆ scope.pairs)
    (occurs : (op.applyTo trees).1 ∈ scope.trees) :
    ∃ next, store.perform sha3Bin op = some next ∧
      Coherent sha3Bin scope next (op.applyTo trees) := by
  cases op with
  | update call storable =>
      obtain ⟨trie, updated, stands, evolves, prevEq⟩ := coherent.current.update store.db spec ok
        (members ⟨call, by simp [StoreOp.updates], rfl⟩) occurs
      refine ⟨⟨store.db, trie⟩, by simp [Store.perform, updated], stands, ?_,
        evolves.fitting spec ok coherent.fitting⟩
      rw [prevEq]
      exact coherent.saved
  | get key =>
      obtain ⟨cache, got, evolves⟩ := coherent.current.get store.db spec ok key
      exact ⟨⟨store.db, { store.trie with cache := cache }⟩, by simp [Store.perform, got],
        evolves.stands spec ok coherent.current, coherent.saved,
        evolves.fitting spec ok coherent.fitting⟩
  | sync => exact ⟨_, rfl, coherent.sync spec ok noZero⟩
  | undo => exact ⟨_, rfl, coherent.undo⟩

theorem Coherent.run {ops : List StoreOp} (coherent : Coherent sha3Bin scope store trees)
    (members : pairsOf (StoreOp.updates ops) ⊆ scope.pairs)
    (reached : ∀ next ∈ StoreOp.reached trees ops, next ∈ scope.trees) :
    ∃ next, store.run sha3Bin ops = some next ∧
      Coherent sha3Bin scope next (ops.foldl StoreOp.applyTo trees) := by
  induction ops generalizing store trees with
  | nil => exact ⟨store, rfl, coherent⟩
  | cons op ops induction =>
      have split : StoreOp.updates (op :: ops) =
          StoreOp.updates [op] ++ StoreOp.updates ops := by
        rw [StoreOp.updates, StoreOp.updates, StoreOp.updates, ← List.filterMap_append]
        rfl
      rw [split] at members
      obtain ⟨next, performed, nextCoherent⟩ := coherent.perform spec ok noZero op
        (Set.Subset.trans (pairsOf_mono (List.subset_append_left _ _)) members)
        (reached _ (List.mem_cons_of_mem _ (StoreOp.mem_reached_self _ _)))
      obtain ⟨last, run, lastCoherent⟩ := induction nextCoherent
        (Set.Subset.trans (pairsOf_mono (List.subset_append_right _ _)) members)
        fun next member => reached next (List.mem_cons_of_mem _ member)
      exact ⟨last, by simpa [Store.run, performed] using run, lastCoherent⟩

end Runs

/-- Whatever calls came before: after `Sync` a trie opened at the root answers as
the synced one does, and after `Undo` the trie answers as it did right after the
last `Sync`, or when it was opened. -/
theorem sync_durable_undo_restores (sha3Bin : Bytes → Bytes) (scope : Scope)
    (ok : scope.Ok) (noZero : scope.NoZero)
    (spec : Sha3Spec sha3Bin (nodeEncodings sha3Bin scope))
    (db : Database) (root : Value) (tree : PathTree)
    (opened : Stands sha3Bin true scope (Cache.source db) (.new root) tree)
    (before middle : List StoreOp)
    (members : pairsOf (StoreOp.updates (before ++ middle)) ⊆ scope.pairs)
    (reached : ∀ next ∈ StoreOp.reached (tree, tree) (before ++ middle), next ∈ scope.trees) :
    (∃ synced, (⟨db, .new root⟩ : Store).run sha3Bin (before ++ middle ++ [.sync]) =
        some synced ∧
      ∀ key, ∃ value, synced.answer key = some value ∧
        synced.reopened.answer key = some value) ∧
    (before = [] ∨ before.getLast? = some .sync → .sync ∉ middle →
      ∃ saved undone, (⟨db, .new root⟩ : Store).run sha3Bin before = some saved ∧
        (⟨db, .new root⟩ : Store).run sha3Bin (before ++ middle ++ [.undo]) = some undone ∧
        ∀ key, ∃ value, saved.answer key = some value ∧ undone.answer key = some value) := by
  have start := opened.coherent_new
  have beforeMembers : pairsOf (StoreOp.updates before) ⊆ scope.pairs := by
    refine Set.Subset.trans (pairsOf_mono ?_) members
    rw [StoreOp.updates, StoreOp.updates, List.filterMap_append]
    exact List.subset_append_left _ _
  obtain ⟨last, run, coherent⟩ := start.run spec ok noZero members reached
  constructor
  · have synced := coherent.sync spec ok noZero
    refine ⟨⟨(last.trie.sync last.db).1, (last.trie.sync last.db).2⟩, ?_,
      fun key => ?_⟩
    · rw [Store.run_append, run, Option.bind_some, Store.run_singleton]
      rfl
    · exact ⟨_, synced.answer spec ok key, synced.saved.coherent_new.answer spec ok key⟩
  · intro lastSync noSync
    obtain ⟨saved, savedRun, savedCoherent⟩ := start.run spec ok noZero beforeMembers
      fun next member => reached next (StoreOp.reached_subset_append _ _ _ member)
    have savedTrees : (before.foldl StoreOp.applyTo (tree, tree)).1 =
        (before.foldl StoreOp.applyTo (tree, tree)).2 := by
      rcases lastSync with rfl | endsWithSync
      · rfl
      · obtain ⟨earlier, rfl⟩ := List.getLast?_eq_some_iff.mp endsWithSync
        rw [List.foldl_append]
        rfl
    have undone := coherent.undo
    rw [List.foldl_append, StoreOp.snd_foldl_applyTo noSync, ← savedTrees] at undone
    refine ⟨saved, ⟨last.db, last.trie.undo⟩, savedRun, ?_, fun key => ?_⟩
    · rw [Store.run_append, run, Option.bind_some, Store.run_singleton]
      rfl
    · exact ⟨_, savedCoherent.answer spec ok key, undone.answer spec ok key⟩

def storeV : StoreOp := .update (updateA 0x76) (by decide)

def storeW : StoreOp := .update (updateA 0x77) (by decide)

/-- What the runs below come to. -/
def letterScope : Scope :=
  ⟨pairsOf [updateA 0x76, updateA 0x77], {tree | tree ∈ fillings [updateA 0x76, updateA 0x77]}⟩

theorem letterScope_ok : letterScope.Ok := ok_of_subset (Set.Subset.refl _)

theorem letterScope_noZero : letterScope.NoZero := by
  rintro pair ⟨update, member, rfl⟩
  fin_cases member <;> decide

theorem letterScope_spec : Sha3Spec letterHash (nodeEncodings letterHash letterScope) :=
  letterHash_spec _ (fun _ => id) (by decide +kernel)

/-- A run on the empty database in which a value is overwritten and the change
undone. -/
theorem undo_restores_letter :
    (∃ synced, (⟨∅, .new (.str [])⟩ : Store).run letterHash
        ([storeV, .sync] ++ [storeW] ++ [.sync]) = some synced ∧
      ∀ key, ∃ value, synced.answer key = some value ∧
        synced.reopened.answer key = some value) ∧
    ∃ saved undone,
      (⟨∅, .new (.str [])⟩ : Store).run letterHash [storeV, .sync] = some saved ∧
      (⟨∅, .new (.str [])⟩ : Store).run letterHash ([storeV, .sync] ++ [storeW] ++ [.undo]) =
        some undone ∧
      ∀ key, ∃ value, saved.answer key = some value ∧ undone.answer key = some value := by
  have both := sync_durable_undo_restores letterHash letterScope letterScope_ok
    letterScope_noZero letterScope_spec ∅ (.str []) .empty (stands_new ..) [storeV, .sync] [storeW]
    (pairsOf_mono (by simp [StoreOp.updates, storeV, storeW]))
    (by
      intro next member
      simp [StoreOp.reached, StoreOp.applyTo, storeV, storeW] at member
      simp [letterScope, fillings, insertions, Update.entry, member])
  exact ⟨both.1, both.2 (.inr rfl) (by simp [storeW])⟩

end Thelonious
