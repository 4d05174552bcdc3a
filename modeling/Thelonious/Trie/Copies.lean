import Thelonious.Trie.Durability

/-!
# Copies of a trie

`Copy` takes over the nodes of the cache together with their dirty flags.  The
cache of the copy counts as clean all the same, and the root it goes back to is
the current one.  So `Sync` of the copy writes nothing, and `Undo` drops the
nodes that were not yet committed.  A copy stands on its own when it is taken
while the cache is clean.
-/

namespace Thelonious

open Radix Radix.Patricia

/-- `Copy`, over the same database. -/
def Store.copied (store : Store) : Store :=
  ⟨store.db, store.trie.copy⟩

section Copies

variable {sha3Bin : Bytes → Bytes} {scope : Scope} {db : Database}
variable (spec : Sha3Spec sha3Bin (nodeEncodings sha3Bin scope)) (ok : scope.Ok)
  (noZero : scope.NoZero)
include spec ok noZero

/-- A clean cache holds nothing that the database does not have. -/
theorem Fitting.keeps_of_clean {cache : Cache} (fitting : Fitting sha3Bin scope db cache)
    (clean : cache.isDirty = false) {tree : PathTree} (known : Known scope tree)
    (keeps : Keeps sha3Bin true (cache.source db) tree) :
    Keeps sha3Bin true (Cache.new.source db) tree := by
  have committed := fitting.keeps_commit spec ok noZero known keeps
  have unchanged : cache.commit db = (db, cache) := by simp [Cache.commit, clean]
  rw [unchanged] at committed
  exact committed

theorem Coherent.copied {store : Store} {trees : PathTree × PathTree}
    (coherent : Coherent sha3Bin scope store trees)
    (clean : store.trie.cache.isDirty = false) :
    Coherent sha3Bin scope store.copied (trees.1, trees.1) where
  current := coherent.current.transfer rfl fun _ _ keeps => keeps
  saved := coherent.current.transfer rfl fun _ known keeps =>
    coherent.fitting.keeps_of_clean spec ok noZero clean known keeps
  fitting :=
    { represents := coherent.fitting.represents
      clean := coherent.fitting.clean
      flagged := fun key node _ found => coherent.fitting.flagged key node clean found }

end Copies

/-- Whatever calls came before, a copy taken while the cache is clean stands on its
own: after its `Sync` a trie opened at its root answers as the original did, and so
does the copy itself after any calls but `Sync` and an `Undo`.  The tree that the copy goes
back to is the one where it was taken, as after a `Sync`. -/
theorem clean_copy_stands_alone (sha3Bin : Bytes → Bytes) (scope : Scope)
    (ok : scope.Ok) (noZero : scope.NoZero)
    (spec : Sha3Spec sha3Bin (nodeEncodings sha3Bin scope))
    (db : Database) (root : Value) (tree : PathTree)
    (opened : Stands sha3Bin true scope (Cache.source db) (.new root) tree)
    (before after : List StoreOp)
    (members : pairsOf (StoreOp.updates (before ++ after)) ⊆ scope.pairs)
    (reached : ∀ next ∈ StoreOp.reached (tree, tree) (before ++ .sync :: after), next ∈ scope.trees)
    (noSync : .sync ∉ after) :
    ∃ store, (⟨db, .new root⟩ : Store).run sha3Bin before = some store ∧
      (store.trie.cache.isDirty = false →
        (∃ synced, store.copied.run sha3Bin [.sync] = some synced ∧
          ∀ key, ∃ value, store.answer key = some value ∧
            synced.reopened.answer key = some value) ∧
        ∃ undone, store.copied.run sha3Bin (after ++ [.undo]) = some undone ∧
          ∀ key, ∃ value, store.answer key = some value ∧ undone.answer key = some value) := by
  rw [StoreOp.updates, List.filterMap_append] at members
  obtain ⟨store, run, coherent⟩ := opened.coherent_new.run spec ok noZero
    (Set.Subset.trans (pairsOf_mono (List.subset_append_left _ _)) members)
    fun next member => reached next (StoreOp.reached_subset_append _ _ _ member)
  refine ⟨store, run, fun clean => ?_⟩
  have copied := coherent.copied spec ok noZero clean
  constructor
  · have synced := copied.sync spec ok noZero
    refine ⟨⟨(store.copied.trie.sync store.db).1, (store.copied.trie.sync store.db).2⟩,
      Store.run_singleton sha3Bin store.copied .sync, fun key => ?_⟩
    exact ⟨_, coherent.answer spec ok key, synced.saved.coherent_new.answer spec ok key⟩
  · obtain ⟨last, further, lastCoherent⟩ := copied.run spec ok noZero
      (Set.Subset.trans (pairsOf_mono (List.subset_append_right _ _)) members)
      fun next member => reached next (StoreOp.reached_subset_of_append _ _ _
        (List.mem_cons_of_mem _ member))
    have undone := lastCoherent.undo
    rw [StoreOp.snd_foldl_applyTo noSync] at undone
    refine ⟨⟨last.db, last.trie.undo⟩, ?_, fun key => ?_⟩
    · rw [Store.run_append, further, Option.bind_some, Store.run_singleton]
      rfl
    · exact ⟨_, coherent.answer spec ok key, undone.answer spec ok key⟩

/-- The copy of a committed trie is changed and the change undone. -/
theorem clean_copy_of_letter :
    ∃ store, (⟨∅, .new (.str [])⟩ : Store).run letterHash [storeV, .sync] = some store ∧
      store.trie.cache.isDirty = false ∧
      (∃ synced, store.copied.run letterHash [.sync] = some synced ∧
        ∀ key, ∃ value, store.answer key = some value ∧
          synced.reopened.answer key = some value) ∧
      ∃ undone, store.copied.run letterHash ([storeW] ++ [.undo]) = some undone ∧
        ∀ key, ∃ value, store.answer key = some value ∧ undone.answer key = some value := by
  obtain ⟨store, run, stands⟩ := clean_copy_stands_alone letterHash
    letterScope letterScope_ok letterScope_noZero letterScope_spec ∅ (.str []) .empty
    (stands_new ..) [storeV, .sync] [storeW]
    (pairsOf_mono (by simp [StoreOp.updates, storeV, storeW]))
    (by
      intro next member
      simp [StoreOp.reached, StoreOp.applyTo, storeV, storeW] at member
      simp [letterScope, fillings, insertions, Update.entry, member])
    (by simp [storeW])
  have clean : store.trie.cache.isDirty = false := by
    have computed : ((⟨∅, .new (.str [])⟩ : Store).run letterHash [storeV, .sync]).map
        (fun store => store.trie.cache.isDirty) = some false := by decide +kernel
    rw [run] at computed
    exact Option.some.inj computed
  exact ⟨store, run, clean, stands clean⟩

/-- A copy taken between `Update` and `Sync`: the letter is missing from the database
after `Sync` of the copy, and from the copy itself after an `Undo`. -/
theorem dirty_copy_loses_letter :
    Sha3Spec letterHash (nodeEncodings letterHash letterScope) ∧
    ((⟨∅, .new (.str [])⟩ : Store).run letterHash [storeV]).bind
      (fun store => store.answer [0x61]) = some [0x76] ∧
    (((⟨∅, .new (.str [])⟩ : Store).run letterHash [storeV]).bind
      fun store => store.copied.run letterHash [.sync]).bind
        (fun synced => synced.reopened.answer [0x61]) = some [] ∧
    (((⟨∅, .new (.str [])⟩ : Store).run letterHash [storeV]).bind
      fun store => store.copied.run letterHash [storeW, .undo]).bind
        (fun undone => undone.answer [0x61]) = some [] :=
  ⟨letterScope_spec, by decide +kernel, by decide +kernel,
    by decide +kernel⟩

end Thelonious
