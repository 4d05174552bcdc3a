import Thelonious.Lib.RadixContent

/-!
# Entries of a radix tree

The pairs stored in a tree, listed along a list of all symbols.  Inserting the
entries of a canonical tree one after the other into the empty tree gives the
tree back.
-/

namespace Radix

namespace Patricia

universe u v

variable {ι : Type u} {V : Type v} {terminator : ι}

def entries (symbols : List ι) : Patricia ι V → List (List ι × V)
  | .empty => []
  | .value content => [([], content)]
  | .short path child =>
      (child.entries symbols).map fun entry => (path ++ entry.1, entry.2)
  | .full children =>
      symbols.flatMap fun symbol =>
        ((children symbol).entries symbols).map fun entry => (symbol :: entry.1, entry.2)

/-- No key is listed twice. -/
theorem nodup_entries {symbols : List ι} (distinct : symbols.Nodup) (tree : Patricia ι V) :
    ((tree.entries symbols).map Prod.fst).Nodup := by
  induction tree with
  | empty | value => simp [entries]
  | short path child induction =>
      simpa [entries, Function.comp_def] using
        induction.map (List.append_right_injective path)
  | full children induction =>
      simp only [entries, List.map_flatMap, List.map_map, Function.comp_def, List.nodup_flatMap]
      refine ⟨fun symbol _ => ?_, distinct.imp fun different => ?_⟩
      · simpa [Function.comp_def] using (induction symbol).map List.cons_injective
      · rw [Function.onFun, List.disjoint_left]
        grind

variable [DecidableEq ι]

theorem mem_entries {symbols : List ι} (complete : ∀ symbol, symbol ∈ symbols)
    (tree : Patricia ι V) (key : List ι) (content : V) :
    (key, content) ∈ tree.entries symbols ↔ tree.get key = some content := by
  induction tree generalizing key with
  | empty => simp [entries, get]
  | value stored =>
      simp only [entries, get, List.mem_singleton, Prod.mk.injEq, Option.ite_none_right_eq_some,
        Option.some.injEq]
      exact and_congr_right fun _ => eq_comm
  | short path child induction =>
      simp only [entries, List.mem_map, Prod.mk.injEq, Prod.exists]
      constructor
      · rintro ⟨rest, stored, member, rfl, rfl⟩
        rw [get_short_append]
        exact (induction rest).mp member
      · intro found
        obtain ⟨rest, rfl⟩ := prefix_of_get_short found
        rw [get_short_append] at found
        exact ⟨rest, content, (induction rest).mpr found, rfl, rfl⟩
  | full children induction =>
      simp only [entries, List.mem_flatMap, List.mem_map, Prod.mk.injEq, Prod.exists]
      constructor
      · rintro ⟨symbol, _, rest, stored, member, rfl, rfl⟩
        exact (induction symbol rest).mp member
      · intro found
        cases key with
        | nil => cases found
        | cons symbol rest =>
            exact ⟨symbol, complete symbol, rest, content, (induction symbol rest).mpr found,
              rfl, rfl⟩

theorem Canonical.terminated_of_get {tree : Patricia ι V}
    (canonical : Canonical terminator tree) {key : List ι} {content : V}
    (found : tree.get key = some content) : Terminated terminator key := by
  induction tree generalizing key with
  | empty => exact canonical.elim
  | value stored => exact canonical.elim
  | short path child induction =>
      obtain ⟨rest, rfl⟩ := prefix_of_get_short found
      rw [get_short_append] at found
      rcases canonical with ⟨terminated, stored, rfl⟩ | ⟨_, interior, _, canonical⟩
      · obtain ⟨rfl, _⟩ := Option.ite_none_right_eq_some.mp found
        rwa [List.append_nil]
      · exact .append interior (induction canonical found)
  | full children induction =>
      cases key with
      | nil => cases found
      | cons symbol rest =>
          have used : children symbol ≠ .empty := by
            intro isEmpty
            rw [get, isEmpty] at found
            cases found
          rcases canonical.slotsFit symbol used with ⟨different, canonical⟩ |
            ⟨rfl, stored, isValue⟩
          · exact .inr ⟨different, induction symbol canonical found⟩
          · rw [get, isValue] at found
            obtain ⟨rfl, _⟩ := Option.ite_none_right_eq_some.mp found
            exact terminated_singleton _

/-- The entries inserted one after the other. -/
def insertEntries (tree : Patricia ι V) (pairs : List (List ι × V)) : Patricia ι V :=
  pairs.foldl (fun tree entry => tree.insert entry.1 entry.2) tree

section Inserting

variable {pairs : List (List ι × V)}

theorem rooted_insertEntries {tree : Patricia ι V} (rooted : Rooted terminator tree)
    (terminated : ∀ entry ∈ pairs, Terminated terminator entry.1) :
    Rooted terminator (tree.insertEntries pairs) := by
  induction pairs generalizing tree with
  | nil => exact rooted
  | cons entry pairs induction =>
      have inserted := canonical_insert rooted (terminated entry List.mem_cons_self) entry.2
      exact induction inserted.rooted fun other member =>
        terminated other (List.mem_cons_of_mem _ member)

/-- A key no entry speaks about keeps its value. -/
theorem get_insertEntries_of_absent {tree : Patricia ι V} (rooted : Rooted terminator tree)
    (terminated : ∀ entry ∈ pairs, Terminated terminator entry.1) {key : List ι}
    (keyTerminated : Terminated terminator key) (absent : ∀ entry ∈ pairs, entry.1 ≠ key) :
    (tree.insertEntries pairs).get key = tree.get key := by
  induction pairs generalizing tree with
  | nil => rfl
  | cons entry pairs induction =>
      have first := terminated entry List.mem_cons_self
      have inserted := canonical_insert rooted first entry.2
      have rest := induction inserted.rooted
        (fun other member => terminated other (List.mem_cons_of_mem _ member))
        (fun other member => absent other (List.mem_cons_of_mem _ member))
      refine rest.trans ?_
      rw [get_insert rooted first keyTerminated,
        if_neg fun same => absent entry List.mem_cons_self same.symm]

/-- When the entries agree on a key, the key has the value they give it. -/
theorem get_insertEntries_of_mem {tree : Patricia ι V} (rooted : Rooted terminator tree)
    (terminated : ∀ entry ∈ pairs, Terminated terminator entry.1) {key : List ι} {content : V}
    (keyTerminated : Terminated terminator key) (member : (key, content) ∈ pairs)
    (agree : ∀ entry ∈ pairs, entry.1 = key → entry.2 = content) :
    (tree.insertEntries pairs).get key = some content := by
  induction pairs generalizing tree with
  | nil => cases member
  | cons entry pairs induction =>
      have first := terminated entry List.mem_cons_self
      have inserted := canonical_insert rooted first entry.2
      have restTerminated : ∀ other ∈ pairs, Terminated terminator other.1 :=
        fun other inside => terminated other (List.mem_cons_of_mem _ inside)
      by_cases later : (key, content) ∈ pairs
      · exact induction inserted.rooted restTerminated later fun other inside =>
          agree other (List.mem_cons_of_mem _ inside)
      · obtain rfl : (key, content) = entry := (List.mem_cons.mp member).resolve_right later
        have absent : ∀ other ∈ pairs, other.1 ≠ key := by
          intro other inside same
          have sameValue := agree other (List.mem_cons_of_mem _ inside) same
          exact later (by rwa [← same, ← sameValue])
        refine (get_insertEntries_of_absent inserted.rooted restTerminated keyTerminated
          absent).trans ?_
        rw [get_insert rooted first keyTerminated, if_pos rfl]

end Inserting

theorem insertEntries_entries {symbols : List ι} (complete : ∀ symbol, symbol ∈ symbols)
    {tree : Patricia ι V} (rooted : Rooted terminator tree) :
    insertEntries .empty (tree.entries symbols) = tree := by
  have terminated : ∀ entry ∈ tree.entries symbols, Terminated terminator entry.1 := by
    intro entry member
    have found := (mem_entries complete tree entry.1 entry.2).mp member
    rcases rooted with rfl | canonical
    · cases found
    · exact canonical.terminated_of_get found
  refine Rooted.eq_of_sameContent (rooted_insertEntries .empty terminated) rooted ?_
  intro key keyTerminated
  cases found : tree.get key with
  | none =>
      refine get_insertEntries_of_absent .empty terminated keyTerminated ?_
      rintro entry member rfl
      rw [(mem_entries complete tree entry.1 entry.2).mp member] at found
      cases found
  | some content =>
      refine get_insertEntries_of_mem .empty terminated keyTerminated
        ((mem_entries complete tree key content).mpr found) ?_
      rintro entry member rfl
      rw [(mem_entries complete tree entry.1 entry.2).mp member] at found
      exact Option.some.inj found

end Patricia

end Radix
