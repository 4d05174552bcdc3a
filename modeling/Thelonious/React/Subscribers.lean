import Thelonious.React.Reactor

/-!
# Subscribers

`EventHandler.Remove` shortens the slice it ranges over.  The channel behind a removed one takes
its place and is never looked at, and behind the end of the shortened slice the loop still finds
the last channel: if that is the one to remove, slicing panics.
-/

namespace Thelonious.React

namespace EventHandler

variable {χ : Type}

/-- `Add` -/
def add (handler : EventHandler χ) (chan : χ) : EventHandler χ :=
  { handler with chans := handler.chans ++ [chan] }

/-- A new handler after some calls of `Add` -/
def afterAdds (name : String) (adds : List χ) : EventHandler χ := adds.foldl add ⟨name, []⟩

theorem afterAdds_eq (name : String) (adds : List χ) : afterAdds name adds = ⟨name, adds⟩ := by
  have general : ∀ chans, adds.foldl add ⟨name, chans⟩ = ⟨name, chans ++ adds⟩ := by
    induction adds with
    | nil => simp
    | cons chan adds induction =>
        intro chans
        rw [List.foldl_cons, add, induction, List.append_assoc]
        rfl
  exact general []

variable [DecidableEq χ]

/-- `Remove`, with the number it returns. -/
def removeCounted (handler : EventHandler χ) (chan : χ) : Option (EventHandler χ × Nat) :=
  (handler.remove chan).map fun left => (left, left.chans.length)

/-- What the loop leaves, unless it panics: the channel behind a removed one stays. -/
def sweep (chan : χ) : List χ → List χ
  | [] => []
  | [last] => if last = chan then [] else [last]
  | first :: second :: rest =>
      if first = chan then second :: sweep chan rest else first :: sweep chan (second :: rest)

variable {chan : χ}

/-! ### The loop -/

theorem foldlM_passes {array : List χ} {len i : Nat} (count : Nat)
    (others : ∀ j, i ≤ j → j < i + count → array[j]? ≠ some chan) :
    (List.range' i count).foldlM (removeAt chan) (array, len) = some (array, len) := by
  induction count generalizing i with
  | zero => rfl
  | succ count induction =>
      rw [List.range'_succ, List.foldlM_cons, removeAt, if_neg (others i le_rfl (by omega))]
      exact induction fun j least most => others j (by omega) (by omega)

/-- A channel is removed: the rest moves up, and the last channel stays behind the end. -/
theorem removeAt_found (done rest stale : List χ) :
    removeAt chan (done ++ chan :: rest ++ stale, done.length + (rest.length + 1)) done.length =
      some (done ++ rest ++ (chan :: rest).getLast (List.cons_ne_nil chan rest) :: stale,
        done.length + rest.length) := by
  have behind : (done ++ chan :: rest).drop (done.length + rest.length) =
      [(chan :: rest).getLast (List.cons_ne_nil chan rest)] := by
    rw [List.drop_append, List.drop_eq_nil_of_le (by omega), Nat.add_sub_cancel_left,
      List.nil_append]
    exact List.drop_length_cons (List.cons_ne_nil chan rest) chan
  have front : (done ++ chan :: rest ++ stale).take (done.length + (rest.length + 1)) =
      done ++ chan :: rest := List.take_left' (by simp)
  have first : (done ++ chan :: rest ++ stale).take done.length = done := by simp
  have moved : (done ++ chan :: rest).drop (done.length + 1) = rest := by simp
  have left : done.length + (rest.length + 1) - 1 = done.length + rest.length := by omega
  have tail : (done ++ chan :: rest ++ stale).drop (done.length + rest.length) =
      (chan :: rest).getLast (List.cons_ne_nil chan rest) :: stale := by
    rw [List.drop_append_of_le_length (by simp), behind]
    rfl
  rw [removeAt, if_pos (by simp), if_neg (by omega), front, first, moved, left, tail]

/-- Behind the end of the slice, a channel that is to be removed makes the loop panic. -/
theorem foldlM_panics {array : List χ} {len i j : Nat} (count : Nat)
    (found : array[j]? = some chan) (behind : len ≤ j) (ahead : i ≤ j) (inside : j < i + count) :
    (List.range' i count).foldlM (removeAt chan) (array, len) = none := by
  induction count generalizing array len i with
  | zero => omega
  | succ count induction =>
      rw [List.range'_succ, List.foldlM_cons]
      by_cases here : i = j
      · subst here
        rw [removeAt, if_pos found, if_pos (by omega)]
        rfl
      · cases removed : removeAt chan (array, len) i with
        | none => rfl
        | some slice =>
            obtain ⟨next, left⟩ := slice
            have kept : next[j]? = some chan ∧ left ≤ j := by
              unfold removeAt at removed
              dsimp only at removed
              split at removed
              · split at removed
                · cases removed
                · cases removed
                  refine ⟨?_, by omega⟩
                  have below : (array.take i ++ (array.take len).drop (i + 1)).length ≤ j := by
                    simp only [List.length_append, List.length_take, List.length_drop]
                    omega
                  have short : array.length > j := (List.getElem?_eq_some_iff.mp found).1
                  rw [List.getElem?_append_right below, List.getElem?_drop, ← found]
                  congr 1
                  simp only [List.length_append, List.length_take, List.length_drop]
                  omega
              · cases removed
                exact ⟨found, behind⟩
            exact induction kept.1 kept.2 (by omega) (by omega)

/-- The loop from a channel on: `done` is what it has passed, and `stale` what is left behind the
end of the slice. -/
def loopFrom (chan : χ) (done rest stale : List χ) : Option (List χ × Nat) :=
  (List.range' done.length (rest.length + stale.length)).foldlM (removeAt chan)
    (done ++ rest ++ stale, done.length + rest.length)

theorem loopFrom_cons (first : χ) (done rest stale : List χ) :
    loopFrom chan done (first :: rest) stale =
      (removeAt chan (done ++ first :: rest ++ stale, done.length + (rest.length + 1))
        done.length).bind
        ((List.range' (done.length + 1) (rest.length + stale.length)).foldlM (removeAt chan)) := by
  have count : (first :: rest).length + stale.length = rest.length + stale.length + 1 := by
    rw [List.length_cons]
    omega
  rw [loopFrom, count, List.range'_succ, List.foldlM_cons]
  rfl

theorem loopFrom_pass {first : χ} (different : first ≠ chan) (done rest stale : List χ) :
    loopFrom chan done (first :: rest) stale = loopFrom chan (done ++ [first]) rest stale := by
  have other : (done ++ first :: rest ++ stale)[done.length]? ≠ some chan := by
    simpa using different
  have lengths : done.length + (rest.length + 1) = done.length + 1 + rest.length := by omega
  rw [loopFrom_cons, removeAt, if_neg other, Option.bind_some, loopFrom, List.length_append,
    List.length_singleton, List.append_assoc done [first], List.singleton_append, lengths]

theorem loopFrom_remove (second : χ) (done rest stale : List χ) :
    loopFrom chan done (chan :: second :: rest) stale =
      loopFrom chan (done ++ [second]) rest
        ((second :: rest).getLast (List.cons_ne_nil second rest) :: stale) := by
  have lengths : done.length + (rest.length + 1) = done.length + 1 + rest.length := by omega
  have counts : rest.length + 1 + stale.length = rest.length + (stale.length + 1) := by omega
  rw [loopFrom_cons, removeAt_found done (second :: rest) stale, Option.bind_some, loopFrom,
    List.getLast_cons (List.cons_ne_nil second rest), List.length_append, List.length_singleton,
    List.append_assoc done [second], List.singleton_append, List.length_cons, List.length_cons,
    lengths, counts]

theorem loopFrom_nil {stale : List χ} (clean : chan ∉ stale) (done : List χ) :
    loopFrom chan done [] stale = some (done ++ stale, done.length) := by
  rw [loopFrom, foldlM_passes]
  · simp
  · intro j least most found
    rw [List.append_nil, List.getElem?_append_right least] at found
    exact clean (List.mem_of_getElem? found)

/-- A channel that is neither the last one nor added twice in a row is removed everywhere. -/
theorem loopFrom_eq (done rest stale : List χ) (clean : chan ∉ stale)
    (single : rest.getLast? = some chan → stale = [] ∧ chan ∉ rest.dropLast) :
    ∃ array len, loopFrom chan done rest stale = some (array, len) ∧
      array.take len = done ++ sweep chan rest := by
  induction rest using sweep.induct chan generalizing done stale with
  | case1 => exact ⟨_, _, loopFrom_nil clean done, by simp [sweep]⟩
  | case2 =>
      obtain ⟨rfl, -⟩ := single rfl
      refine ⟨done ++ [chan], done.length, ?_, by simp [sweep]⟩
      rw [loopFrom_cons, removeAt_found done [] []]
      simp
  | case3 last different =>
      rw [loopFrom_pass different]
      refine ⟨_, _, loopFrom_nil clean _, ?_⟩
      rw [List.take_left, sweep, if_neg different]
  | case4 second rest induction =>
      have lastNe : (second :: rest).getLast (List.cons_ne_nil second rest) ≠ chan := by
        intro same
        have last : (chan :: second :: rest).getLast? = some chan := by
          rw [List.getLast?_cons_cons, List.getLast?_eq_some_getLast (List.cons_ne_nil second rest),
            same]
        exact (single last).2 (by simp)
      rw [loopFrom_remove]
      have clean : chan ∉ (second :: rest).getLast (List.cons_ne_nil second rest) :: stale := by
        simpa [eq_comm] using And.intro lastNe clean
      have single : rest.getLast? ≠ some chan := by
        intro same
        apply lastNe
        have nonempty : rest ≠ [] := by
          rintro rfl
          cases same
        rw [List.getLast_cons nonempty]
        rw [List.getLast?_eq_some_getLast nonempty] at same
        exact Option.some.inj same
      obtain ⟨array, len, looped, kept⟩ :=
        induction (done ++ [second]) _ clean fun same => absurd same single
      refine ⟨array, len, looped, ?_⟩
      rw [kept, sweep, if_pos rfl, List.append_assoc]
      rfl
  | case5 first second rest different induction =>
      rw [loopFrom_pass different]
      obtain ⟨array, len, looped, kept⟩ := induction (done ++ [first]) stale clean (by
        intro same
        obtain ⟨empty, absent⟩ := single same
        exact ⟨empty, fun member => absent (List.mem_cons_of_mem first member)⟩)
      refine ⟨array, len, looped, ?_⟩
      rw [kept, sweep, if_neg different, List.append_assoc]
      rfl

/-! ### What is left -/

theorem sweep_eq_filter {chans : List χ}
    (apart : chans.IsChain fun c next => c = chan → next ≠ chan) :
    sweep chan chans = chans.filter (· ≠ chan) := by
  induction chans using sweep.induct chan with
  | case1 => rfl
  | case2 => simp [sweep]
  | case3 last different => simp [sweep, different]
  | case4 second rest induction =>
      obtain ⟨different, apart⟩ := List.isChain_cons_cons.mp apart
      have secondNe := different rfl
      rw [sweep, if_pos rfl, induction apart.tail]
      simp [secondNe]
  | case5 first second rest different induction =>
      rw [sweep, if_neg different, induction apart.tail]
      simp [different]

theorem isChain_of_sweep {chans : List χ} (absent : chan ∉ sweep chan chans) :
    chans.IsChain fun c next => c = chan → next ≠ chan := by
  induction chans using sweep.induct chan with
  | case1 => exact .nil
  | case2 => exact .singleton _
  | case3 last different => exact .singleton _
  | case4 second rest induction =>
      rw [sweep, if_pos rfl, List.mem_cons, not_or] at absent
      obtain ⟨secondNe, absent⟩ := absent
      refine .cons_cons (fun _ same => secondNe same.symm) ?_
      exact List.isChain_cons.mpr ⟨fun next _ same => absurd same.symm secondNe, induction absent⟩
  | case5 first second rest different induction =>
      rw [sweep, if_neg different, List.mem_cons, not_or] at absent
      exact .cons_cons (fun same => absurd same different) (induction absent.2)

theorem remove_eq (name : String) (adds : List χ) (chan : χ) :
    remove ⟨name, adds⟩ chan =
      (loopFrom chan [] adds []).map fun slice => ⟨name, slice.1.take slice.2⟩ := by
  have start : (List.range adds.length).foldlM (removeAt chan) (adds, adds.length) =
      loopFrom chan [] adds [] := by
    rw [loopFrom, List.range_eq_range']
    simp
  rw [remove, start]
  cases loopFrom chan [] adds [] with
  | none => rfl
  | some slice => rfl

theorem loopFrom_append {front : List χ} (absent : chan ∉ front) (done rest stale : List χ) :
    loopFrom chan done (front ++ rest) stale = loopFrom chan (done ++ front) rest stale := by
  induction front generalizing done with
  | nil => rw [List.nil_append, List.append_nil]
  | cons first front induction =>
      obtain ⟨different, absent⟩ := not_or.mp (mt List.mem_cons.mpr absent)
      rw [List.cons_append, loopFrom_pass (Ne.symm different), induction absent, List.append_assoc]
      rfl

/-- The last channel cannot be removed, if it has been added before. -/
theorem remove_panics (name : String) {adds : List χ} (last : adds.getLast? = some chan)
    (twice : chan ∈ adds.dropLast) : remove ⟨name, adds⟩ chan = none := by
  obtain ⟨front, back, split, absent⟩ := List.eq_append_cons_of_mem twice
  have addsEq : adds = front ++ chan :: (back ++ [chan]) := by
    have whole := List.dropLast_append_getLast? chan last
    rw [split, List.append_assoc] at whole
    exact whole.symm
  have behind : (chan :: (back ++ [chan])).getLast (List.cons_ne_nil _ _) = chan := by simp
  have panics : (List.range' (front.length + 1) (back ++ [chan]).length).foldlM (removeAt chan)
      (front ++ (back ++ [chan]) ++ [chan], front.length + (back ++ [chan]).length) = none :=
    foldlM_panics (j := front.length + (back ++ [chan]).length) _ (by simp) le_rfl (by simp)
      (by omega)
  rw [remove_eq, addsEq, loopFrom_append absent, List.nil_append, loopFrom_cons, removeAt_found,
    behind, Option.bind_some, List.length_nil, Nat.add_zero (back ++ [chan]).length, panics]
  rfl

/-- The channel is never added twice in a row, and if it is the last one, it is added only
once. -/
def Removable (adds : List χ) (chan : χ) : Prop :=
  (adds.IsChain fun c next => c = chan → next ≠ chan) ∧
    (adds.getLast? = some chan → chan ∉ adds.dropLast)

theorem remove_filter_iff (name : String) (adds : List χ) (chan : χ) :
    remove ⟨name, adds⟩ chan = some ⟨name, adds.filter (· ≠ chan)⟩ ↔ Removable adds chan := by
  by_cases single : adds.getLast? = some chan → chan ∉ adds.dropLast
  · obtain ⟨array, len, looped, kept⟩ := loopFrom_eq [] adds [] List.not_mem_nil
      fun last => ⟨rfl, single last⟩
    rw [List.nil_append] at kept
    rw [remove_eq, looped, Option.map_some, kept, Option.some.injEq, EventHandler.mk.injEq]
    constructor
    · rintro ⟨-, swept⟩
      refine ⟨isChain_of_sweep ?_, single⟩
      rw [swept]
      simp
    · rintro ⟨apart, -⟩
      exact ⟨rfl, sweep_eq_filter apart⟩
  · obtain ⟨last, twice⟩ := Classical.not_imp.mp single
    rw [remove_panics name last (not_not.mp twice)]
    constructor
    · intro impossible
      cases impossible
    · intro removable
      exact absurd removable.2 single

end EventHandler

open EventHandler

variable {κ χ ρ : Type} [DecidableEq χ]

/-- `Remove` and `Unsubscribe` do what they are for: no other channel is lost or moved, the
channel is gone, and the handler is dropped when no subscriber is left. -/
structure Unsubscribes (κ ρ : Type) (name : String) (adds : List χ) (chan : χ) : Prop where
  removed : (afterAdds name adds).removeCounted chan =
    some (⟨name, adds.filter (· ≠ chan)⟩, (adds.filter (· ≠ chan)).length)
  dropped (r : Reactor κ χ ρ) : r.eventHandlers name = some (afterAdds name adds) →
    ∃ after, r.unsubscribe name chan = some after ∧
      (after.eventHandlers name = none ↔ ∀ other ∈ adds, other = chan)

/-- Unsubscribing removes exactly the channel, as long as it is never added twice in a row and,
if it was added last, not before. -/
theorem unsubscribes_iff (κ ρ : Type) (name : String) (adds : List χ) (chan : χ) :
    Unsubscribes κ ρ name adds chan ↔ Removable adds chan := by
  rw [← remove_filter_iff name]
  constructor
  · rintro ⟨removed, -⟩
    rw [removeCounted, afterAdds_eq] at removed
    obtain ⟨left, leftEq, counted⟩ := Option.map_eq_some_iff.mp removed
    rw [leftEq, (Prod.mk.inj counted).1]
  · intro removed
    constructor
    case removed => rw [removeCounted, afterAdds_eq, removed, Option.map_some]
    case dropped =>
      intro r found
      rw [afterAdds_eq] at found
      simp only [Reactor.unsubscribe, found, removed, Option.bind_eq_bind, Option.bind_some]
      refine ⟨_, rfl, ?_⟩
      dsimp only
      rw [Function.update_self]
      simp [List.length_eq_zero_iff, List.filter_eq_nil_iff]

/-- Of two calls of `Add` in a row one stays, or the call panics. -/
theorem unsubscribe_leaves_twin :
    ¬ Unsubscribes Nat Nat "newBlock" [0, 0, 1] 0 ∧ ¬ Unsubscribes Nat Nat "newBlock" [0, 0] 0 := by
  constructor
  · rintro ⟨removed, -⟩
    have twin : (afterAdds "newBlock" [0, 0, 1]).removeCounted 0 = some (⟨"newBlock", [0, 1]⟩, 2) :=
      rfl
    rw [twin] at removed
    cases removed
  · rintro ⟨removed, -⟩
    have panics : (afterAdds "newBlock" [0, 0]).removeCounted 0 = none := rfl
    rw [panics] at removed
    cases removed

end Thelonious.React
