import Mathlib

/-!
# The leading chain of a list

How far a list is a chain, that is, where two neighbours are first unrelated, and the
longest of its beginnings that is a chain.
-/

namespace LeadingChain

variable {α : Type*} (R : α → α → Prop) [DecidableRel R]

/-- The position in front of the first neighbour that is not related. -/
def gap : List α → Option ℕ
  | first :: second :: rest =>
      if R first second then (gap (second :: rest)).map (· + 1) else some 0
  | _ => none

omit [DecidableRel R] in
/-- `part` is the longest beginning of `whole` that is a chain. -/
structure IsLongest (whole part : List α) : Prop where
  begins : part <+: whole
  chained : part.IsChain R
  longest {other : List α} : other <+: whole → other.IsChain R → other.length ≤ part.length

variable {R} {list : List α}

theorem isChain_of_gap_eq_none (none : gap R list = none) : list.IsChain R := by
  induction list with
  | nil => exact .nil
  | cons first rest hypothesis =>
      cases rest with
      | nil => exact .singleton first
      | cons second rest =>
          rw [gap] at none
          split at none
          · rename_i related
            exact .cons_cons related (hypothesis (Option.map_eq_none_iff.mp none))
          · cases none

/-- Up to the gap the list is a chain, and no further. -/
theorem of_gap_eq_some {i : ℕ} (found : gap R list = some i) :
    i + 1 < list.length ∧ (list.take (i + 1)).IsChain R ∧ ¬ list.IsChain R := by
  induction list generalizing i with
  | nil => cases found
  | cons first rest hypothesis =>
      cases rest with
      | nil => cases found
      | cons second rest =>
          rw [gap] at found
          split at found
          · rename_i related
            obtain ⟨before, beforeEq, rfl⟩ := Option.map_eq_some_iff.mp found
            obtain ⟨inside, chained, broken⟩ := hypothesis beforeEq
            refine ⟨Nat.succ_lt_succ inside, ?_, ?_⟩
            · rw [List.take_succ_cons] at chained ⊢
              exact .cons_cons related chained
            · intro chain
              exact broken (List.isChain_cons_cons.mp chain).2
          · rename_i unrelated
            obtain rfl := Option.some.inj found
            refine ⟨by simp, .singleton first, ?_⟩
            intro chain
            exact unrelated (List.isChain_cons_cons.mp chain).1

theorem gap_eq_none_iff : gap R list = none ↔ list.IsChain R := by
  constructor
  · exact isChain_of_gap_eq_none
  · intro chained
    cases found : gap R list with
    | none => rfl
    | some i => exact absurd chained (of_gap_eq_some found).2.2

omit [DecidableRel R] in
theorem IsLongest.refl {list : List α} (chained : list.IsChain R) : IsLongest R list list where
  begins := List.prefix_rfl
  chained := chained
  longest begins _ := begins.length_le

/-- What ends in front of the gap is not the longest. -/
theorem not_isLongest_take {i : ℕ} (found : gap R list = some i) :
    ¬ IsLongest R list (list.take i) := by
  intro longest
  obtain ⟨inside, chained, -⟩ := of_gap_eq_some found
  have begins : list.take (i + 1) <+: list := List.take_prefix _ _
  have shorter := longest.longest begins chained
  rw [List.length_take, List.length_take] at shorter
  omega

end LeadingChain
