import Thelonious.State.Ledger
import Thelonious.Vm.Deeds

/-!
# What a step of the machine does to the balances

A mild step is quiet: it does not change the sum of the balances.
-/

namespace Thelonious

namespace World

/-- The references handed out are kept, and every object of the new state was there
before or is new. -/
structure Renews (before after : World) : Prop where
  next_le : before.next ≤ after.next
  fresh {addr : Bytes} {ref : Ref} :
    AList.lookup addr after.state.stateObjects = some ref →
      AList.lookup addr before.state.stateObjects = some ref ∨ before.next ≤ ref

/-- `after` counts the same balances, and every object its state has was there
before or is new. -/
structure Quiet (db : Database) (before after : World) : Prop where
  sound : after.Sound
  next_le : before.next ≤ after.next
  fresh {addr : Bytes} {ref : Ref} :
    AList.lookup addr after.state.stateObjects = some ref →
      AList.lookup addr before.state.stateObjects = some ref ∨ before.next ≤ ref
  total_eq : after.total db = before.total db

variable {db : Database} {w : World}

namespace Renews

variable {middle after : World}

theorem refl (w : World) : Renews w w := ⟨le_rfl, fun found => .inl found⟩

theorem trans (first : Renews w middle) (second : Renews middle after) : Renews w after where
  next_le := first.next_le.trans second.next_le
  fresh found := by
    rcases second.fresh found with found | above
    · exact first.fresh found
    · exact .inr (first.next_le.trans above)

theorem modify (w : World) (ref : Ref) (change : StateObject → StateObject) :
    Renews w (w.modify ref change) := ⟨le_rfl, fun found => .inl found⟩

theorem set (w : World) (copied : State StateObject) : Renews w (w.set copied) :=
  ⟨next_le_set w copied, fun found => .inr (next_le_of_lookup_set found)⟩

end Renews

theorem Loads.quiet {after : World} (loads : Loads db w after) : Quiet db w after where
  sound := loads.sound
  next_le := loads.next_le
  fresh found := (loads.fresh found).imp_right And.left
  total_eq := loads.total_eq

namespace Quiet

theorem renews {after : World} (quiet : Quiet db w after) : Renews w after :=
  ⟨quiet.next_le, quiet.fresh⟩

theorem refl (sound : w.Sound) : Quiet db w w := (Loads.refl sound).quiet

theorem trans {middle after : World} (first : Quiet db w middle) (second : Quiet db middle after) :
    Quiet db w after where
  sound := second.sound
  next_le := first.next_le.trans second.next_le
  fresh := (first.renews.trans second.renews).fresh
  total_eq := second.total_eq.trans first.total_eq

end Quiet

theorem quiet_modify (sound : w.Sound) {ref : Ref} {change : StateObject → StateObject}
    (addressEq : (change (w.heap ref)).address = (w.heap ref).address)
    (worthEq : (change (w.heap ref)).worth = (w.heap ref).worth) :
    Quiet db w (w.modify ref change) where
  sound := sound.modify addressEq
  next_le := le_rfl
  fresh found := .inl found
  total_eq := by simp [total_modify addressEq sound, worthEq]

theorem Mild.quiet {counting : Ref → Prop} {after : World} (mild : Mild db counting w after)
    (sound : w.Sound) : Quiet db w after := by
  induction mild with
  | refl => exact .refl sound
  | load _ got induction => exact induction.trans (loads_getStateObject induction.sound got).1.quiet
  | create _ got induction =>
      exact induction.trans (loads_getOrNewStateObject induction.sound got).1.quiet
  | setCode _ ref code induction | incrementNonce _ _ induction
  | setStorage _ ref location value induction =>
      exact induction.trans (quiet_modify induction.sound rfl rfl)
  | cache _ got induction =>
      obtain ⟨trie, storage, rfl⟩ := StateObject.getStorage_fields got
      exact induction.trans (quiet_modify induction.sound rfl rfl)

end World

namespace Machine

/-- The state is sound, and the references in use have been handed out. -/
structure Valid (m : Machine) : Prop where
  sound : m.world.Sound
  object {ref : Ref} : m.control.object = some ref → ref < m.world.next
  waiting {caller : Waiting} : caller ∈ m.waiting →
    caller.closure.object < m.world.next ∧ caller.snapshot.SoundCopy

variable {env : Env} {db : Database} {m after : Machine}

/-- A deed keeps the machine valid, and the state never gets back an object that it has lost. -/
theorem Valid.deed (valid : m.Valid) (deed : Deed env db m after) :
    after.Valid ∧ World.Renews m.world after.world := by
  have later : ∀ {w : World}, m.world.next ≤ w.next → ∀ {caller : Waiting}, caller ∈ m.waiting →
      caller.closure.object < w.next ∧ caller.snapshot.SoundCopy := by
    intro w le caller member
    obtain ⟨below, copied⟩ := valid.waiting member
    exact ⟨below.trans_le le, copied⟩
  cases deed with
  | mild world waiting acting =>
      have quiet := world.quiet valid.sound
      refine ⟨⟨quiet.sound, fun isActing => ?_,
        fun member => later quiet.next_le (waiting.mem member)⟩, quiet.renews⟩
      rcases acting _ isActing with same | ⟨caller, member, rfl⟩
      · exact (valid.object same).trans_le quiet.next_le
      · exact (later quiet.next_le member).1
  | send caller msg copied loaded world running control waiting snapshot =>
      have copiedQuiet := loaded.quiet valid.sound
      have quiet := copiedQuiet.trans (world.quiet copiedQuiet.sound)
      have sender := (valid.object running).trans_le quiet.next_le
      refine ⟨⟨quiet.sound, fun isActing => ?_, fun member => ?_⟩, quiet.renews⟩
      · obtain rfl : caller.closure.object = _ := by simpa [control, Control.object] using isActing
        exact sender
      · rcases List.mem_cons.mp (waiting ▸ member) with rfl | member
        · exact ⟨sender, snapshot ▸ copiedQuiet.sound.copy⟩
        · exact later quiet.next_le member
  | transfer msg caller object loaded executing covered ordinary found world waiting acting =>
      obtain ⟨loads, lookupEq⟩ := World.loads_getOrNewStateObject valid.sound found
      have quiet := world.quiet ((loads.sound.modify rfl).modify rfl)
      have renews : World.Renews m.world after.world :=
        (loads.quiet.renews.trans ((World.Renews.modify ..).trans (.modify ..))).trans quiet.renews
      refine ⟨⟨quiet.sound, fun isActing => ?_,
        fun member => later renews.next_le (waiting.mem member)⟩, renews⟩
      rw [acting _ isActing]
      exact (loads.sound.held lookupEq).1.trans_le quiet.next_le
  | bequeath closure l addr rest receiver loaded running suicide stack found world waiting acting =>
      obtain ⟨loads, -⟩ := World.loads_getOrNewStateObject valid.sound found
      have renews : World.Renews m.world after.world :=
        world ▸ loads.quiet.renews.trans ((World.Renews.modify ..).trans (.modify ..))
      refine ⟨⟨world ▸ (loads.sound.modify rfl).modify rfl, fun isActing => ?_,
        fun member => later renews.next_le (waiting ▸ member)⟩, renews⟩
      cases acting.symm.trans isActing
  | revert result caller returning failed waiting world running =>
      obtain ⟨below, copied⟩ := valid.waiting (waiting ▸ List.mem_cons_self)
      have renews : World.Renews m.world after.world := world ▸ .set _ _
      refine ⟨⟨world ▸ .set copied, fun isActing => ?_,
        fun member => later renews.next_le (waiting ▸ List.mem_cons_of_mem _ member)⟩, renews⟩
      obtain rfl : caller.closure.object = _ := by simpa [running] using isActing
      exact below.trans_le renews.next_le

theorem Valid.step (valid : m.Valid) : (m.step env db).Valid := (valid.deed (deed_step env db m)).1

end Machine

end Thelonious
