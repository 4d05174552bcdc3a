import Mathlib

/-!
# Association maps with uniform values

The value-wise operations on `AList` that finite maps of a program need:
changing every value, dropping some entries, and visiting all of them.
-/

/-- A finite map whose values all have one type. -/
abbrev AssocMap (κ α : Type) := AList (fun _ : κ => α)

namespace AssocMap

variable {κ α β : Type}

def mapValues (change : α → β) (map : AssocMap κ α) : AssocMap κ β :=
  ⟨map.entries.map (fun entry => ⟨entry.1, change entry.2⟩), by
    have keysEq : (map.entries.map (fun entry : Sigma (fun _ : κ => α) =>
        (⟨entry.1, change entry.2⟩ : Sigma (fun _ : κ => β)))).keys =
          map.entries.keys := by
      simp [List.keys, Function.comp_def]
    rw [List.NodupKeys, keysEq]
    exact map.nodupKeys⟩

def filterValues (keep : α → Bool) (map : AssocMap κ α) : AssocMap κ α :=
  ⟨map.entries.filter (fun entry => keep entry.2),
    map.nodupKeys.sublist List.filter_sublist⟩

variable [DecidableEq κ]

@[simp] theorem lookup_mapValues (change : α → β) (map : AssocMap κ α) (key : κ) :
    (mapValues change map).lookup key = (map.lookup key).map change :=
  List.dlookup_map₂ (f := fun _ => change) key

@[simp] theorem lookup_filterValues (keep : α → Bool) (map : AssocMap κ α) (key : κ) :
    (filterValues keep map).lookup key = (map.lookup key).filter keep := by
  obtain ⟨entries, nodup⟩ := map
  simp only [filterValues, AList.lookup]
  induction entries with
  | nil => rfl
  | cons entry entries induction =>
      obtain ⟨entryKey, value⟩ := entry
      obtain ⟨fresh, nodupRest⟩ := List.nodupKeys_cons.mp nodup
      have rest := induction nodupRest
      by_cases same : entryKey = key
      · subst same
        rw [List.dlookup_eq_none.mpr fresh] at rest
        by_cases kept : keep value
        · simp [kept, Option.filter]
        · simpa [List.filter_cons, kept, Option.filter] using rest
      · rw [List.dlookup_cons_ne _ _ (Ne.symm same), ← rest, List.filter_cons]
        split
        · rw [List.dlookup_cons_ne _ _ (Ne.symm same)]
        · rfl

end AssocMap
