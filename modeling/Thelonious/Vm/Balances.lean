import Thelonious.State.Ledger
import Thelonious.Util.RlpBounds
import Thelonious.Vm.Deeds

/-!
# The balances of the objects

What a step of the machine does to each single object: a mild step keeps the
balances and the objects that the state has, and an object that it loads or
creates is not in debt.
-/

namespace Thelonious

variable {data : Bytes} {value : Value} {fuel pos next : Nat}

/-! ### Stored balances -/

theorem Value.asBigInt_nonneg (notBig : ∀ number, value ≠ .bigInt number)
    (small : value.asUint.toNat < 2 ^ 63) : 0 ≤ value.asBigInt := by
  unfold asBigInt
  split
  · exact Int.natCast_nonneg _
  · exact absurd rfl (notBig _)
  · rw [Int.bmod_eq_of_le]
    · exact Int.natCast_nonneg _
    · omega
    · omega

theorem Value.asBigInt_nil_nonneg : 0 ≤ Value.nil.asBigInt :=
  asBigInt_nonneg (by simp) (by simp [asUint])

theorem Value.asBigInt_list_nonneg (items : List Value) : 0 ≤ (Value.list items).asBigInt :=
  asBigInt_nonneg (by simp) (by simp [asUint])

theorem Value.asBigInt_byte_nonneg (single : UInt8) : 0 ≤ (Value.byte single).asBigInt := by
  have bound := single.toNat_lt
  refine asBigInt_nonneg (by simp) ?_
  simp only [asUint, UInt8.toNat_toUInt64]
  omega

theorem decodeAt_nonneg (decoded : decodeAt fuel data pos = some (value, next)) :
    0 ≤ value.asBigInt := by
  rcases decodeAt_cases decoded with ⟨-, text⟩ | ⟨-, -, -, items, -, -, -, rfl⟩
  · obtain ⟨⟨single, rfl⟩ | ⟨ret, rfl⟩, -⟩ := textAt_spec text
    · exact Value.asBigInt_byte_nonneg single
    · exact Int.natCast_nonneg _
  · exact Value.asBigInt_list_nonneg items

theorem decodeItems_nonneg {i b : Nat} {items : List Value}
    (decoded : decodeItems fuel data pos i b = some (items, next)) :
    ∀ item ∈ items, 0 ≤ item.asBigInt := by
  induction fuel generalizing pos i items next with
  | zero => cases decoded
  | succ fuel induction =>
      rw [decodeItems] at decoded
      split at decoded
      · obtain ⟨⟨item, after⟩, itemEq, decoded⟩ := Option.bind_eq_some_iff.mp decoded
        obtain ⟨⟨rest, last⟩, restEq, decoded⟩ := Option.bind_eq_some_iff.mp decoded
        cases decoded
        exact List.forall_mem_cons.mpr ⟨decodeAt_nonneg itemEq, induction restEq⟩
      · cases decoded
        simp

theorem asBigInt_get_nonneg (decoded : newValueFromBytes data = some value) (index : Nat) :
    0 ≤ (value.get index).asBigInt := by
  unfold newValueFromBytes at decoded
  split at decoded
  · obtain ⟨⟨read, next⟩, readEq, rfl⟩ := Option.map_eq_some_iff.mp decoded
    rcases decodeAt_cases readEq with ⟨-, text⟩ | ⟨_, _, _, items, -, -, itemsEq, rfl⟩
    · obtain ⟨⟨single, rfl⟩ | ⟨ret, rfl⟩, -⟩ := textAt_spec text
      · exact Value.asBigInt_nil_nonneg
      · exact Value.asBigInt_nil_nonneg
    · rw [Value.get, List.getD_eq_getElem?_getD]
      cases found : items[index]? with
      | none => exact Value.asBigInt_nil_nonneg
      | some item => exact decodeItems_nonneg itemsEq item (List.mem_of_getElem? found)
  · cases decoded
    exact Value.asBigInt_nil_nonneg

theorem StateObject.fromBytes_nonneg {db : Database} {address : Bytes} {object : StateObject}
    (read : fromBytes db address data = some object) : 0 ≤ object.balance := by
  obtain ⟨decoder, decoded, read⟩ := Option.bind_eq_some_iff.mp read
  cases read
  exact asBigInt_get_nonneg decoded 1

namespace World

/-! ### Loading -/

/-- The objects of `w` have the balances they had, the state still has those it had, and
the objects that are new are not in debt. -/
structure Keeps (w after : World) : Prop where
  next_le : w.next ≤ after.next
  balance_eq {ref : Ref} : ref < w.next → (after.heap ref).balance = (w.heap ref).balance
  nonneg {ref : Ref} : w.next ≤ ref → ref < after.next → 0 ≤ (after.heap ref).balance
  kept {addr : Bytes} {ref : Ref} : AList.lookup addr w.state.stateObjects = some ref →
    AList.lookup addr after.state.stateObjects = some ref
  fresh {addr : Bytes} {ref : Ref} : AList.lookup addr after.state.stateObjects = some ref →
    AList.lookup addr w.state.stateObjects = some ref ∨ w.next ≤ ref ∧ ref < after.next

variable {db : Database} {w : World}

namespace Keeps

theorem refl (w : World) : Keeps w w where
  next_le := le_rfl
  balance_eq _ := rfl
  nonneg above below := absurd below above.not_gt
  kept found := found
  fresh found := .inl found

theorem trans {middle after : World} (first : Keeps w middle) (second : Keeps middle after) :
    Keeps w after where
  next_le := first.next_le.trans second.next_le
  balance_eq below :=
    (second.balance_eq (below.trans_le first.next_le)).trans (first.balance_eq below)
  nonneg {ref} above below := by
    by_cases old : ref < middle.next
    · rw [second.balance_eq old]
      exact first.nonneg above old
    · exact second.nonneg (not_lt.mp old) below
  kept found := second.kept (first.kept found)
  fresh found := by
    rcases second.fresh found with found | ⟨above, below⟩
    · exact (first.fresh found).imp_right fun bounds =>
        ⟨bounds.1, bounds.2.trans_le second.next_le⟩
    · exact .inr ⟨first.next_le.trans above, below⟩

theorem modify (w : World) {ref : Ref} {change : StateObject → StateObject}
    (balanceEq : (change (w.heap ref)).balance = (w.heap ref).balance) :
    Keeps w (w.modify ref change) where
  next_le := le_rfl
  balance_eq {other} _ := by
    by_cases same : other = ref
    · rw [same, heap_modify_self, balanceEq]
    · rw [heap_modify_of_ne same]
  nonneg above below := absurd below above.not_gt
  kept found := found
  fresh found := .inl found

theorem install {addr : Bytes} {object : StateObject}
    (absent : AList.lookup addr w.state.stateObjects = none) (nonneg : 0 ≤ object.balance) :
    Keeps w (w.install addr object) where
  next_le := Nat.le_succ _
  balance_eq below := by rw [heap_install_of_lt below]
  nonneg {ref} above below := by
    obtain rfl : ref = w.next := le_antisymm (Nat.lt_succ_iff.mp below) above
    rwa [heap_install_next]
  kept {other ref} found := by
    have different : other ≠ addr := by
      rintro rfl
      rw [absent] at found
      cases found
    rwa [lookup_install, if_neg different]
  fresh {other ref} found := by
    rw [lookup_install] at found
    split at found
    · cases found
      exact .inr ⟨le_rfl, Nat.lt_succ_self _⟩
    · exact .inl found

end Keeps

variable {after : World}

theorem keeps_getStateObject {addr : Bytes} {found : Option Ref}
    (got : w.getStateObject db addr = some (found, after)) :
    Keeps w after ∧ AList.lookup (address addr) after.state.stateObjects = found := by
  unfold getStateObject at got
  split at got
  · rename_i ref lookupEq
    cases got
    exact ⟨.refl w, lookupEq⟩
  · rename_i lookupEq
    obtain ⟨⟨data, trie⟩, -, got⟩ := Option.bind_eq_some_iff.mp got
    have loads : Keeps w (w.setTrie trie) := ⟨le_rfl, fun _ => rfl,
      fun above below => absurd below above.not_gt, fun found => found, fun found => .inl found⟩
    dsimp only at got
    split at got
    · cases got
      exact ⟨loads, lookupEq⟩
    · obtain ⟨object, read, got⟩ := Option.bind_eq_some_iff.mp got
      cases got
      refine ⟨loads.trans (.install lookupEq (StateObject.fromBytes_nonneg read)), ?_⟩
      rw [lookup_install, if_pos rfl]

theorem keeps_getOrNewStateObject {addr : Bytes} {ref : Ref}
    (got : w.getOrNewStateObject db addr = some (ref, after)) :
    Keeps w after ∧ AList.lookup (address addr) after.state.stateObjects = some ref := by
  obtain ⟨⟨found, middle⟩, foundEq, got⟩ := Option.bind_eq_some_iff.mp got
  obtain ⟨keeps, lookupEq⟩ := keeps_getStateObject foundEq
  cases found with
  | some held =>
      cases got
      exact ⟨keeps, lookupEq⟩
  | none =>
      cases got
      refine ⟨keeps.trans (.install lookupEq le_rfl), ?_⟩
      rw [lookup_install, if_pos rfl]

theorem Mild.keeps {counting : Ref → Prop} (mild : Mild db counting w after) : Keeps w after := by
  induction mild with
  | refl => exact .refl w
  | load _ got induction => exact induction.trans (keeps_getStateObject got).1
  | create _ got induction => exact induction.trans (keeps_getOrNewStateObject got).1
  | setCode _ ref code induction | incrementNonce _ _ induction
  | setStorage _ ref location value induction => exact induction.trans (.modify _ rfl)
  | cache _ got induction =>
      obtain ⟨trie, storage, rfl⟩ := StateObject.getStorage_fields got
      exact induction.trans (.modify _ rfl)

end World

/-! ### Objects without debt -/

/-- No object of a copy is in debt. -/
def State.Nonneg (copied : State StateObject) : Prop :=
  ∀ entry ∈ copied.stateObjects.entries, 0 ≤ entry.2.balance

namespace World

variable {w : World}

theorem heap_set_new {copied : State StateObject} {ref : Ref} (above : w.next ≤ ref)
    (below : ref < (w.set copied).next) :
    ∃ entry ∈ copied.stateObjects.entries, (w.set copied).heap ref = entry.2 := by
  have installed : ∀ (entries : List (Sigma fun _ : Bytes => StateObject)) (w : World),
      entries.NodupKeys → w.next ≤ ref →
      ref < (entries.foldl (fun w entry => w.install entry.1 entry.2) w).next →
      ∃ entry ∈ entries,
        (entries.foldl (fun w entry => w.install entry.1 entry.2) w).heap ref = entry.2 := by
    intro entries
    induction entries with
    | nil => exact fun w _ above below => absurd below above.not_gt
    | cons entry entries induction =>
        intro w distinct above below
        obtain ⟨-, distinct⟩ := List.nodupKeys_cons.mp distinct
        rcases above.eq_or_lt with rfl | later
        · refine ⟨entry, List.mem_cons_self, ?_⟩
          rw [List.foldl_cons, (installs_foldl entries distinct _).heap_eq (Nat.lt_succ_self _),
            heap_install_next]
        · obtain ⟨other, member, heapEq⟩ :=
            induction (w.install entry.1 entry.2) distinct later below
          exact ⟨other, List.mem_cons_of_mem _ member, heapEq⟩
  exact installed _ { w with state := ⟨copied.trie, ∅⟩ } copied.stateObjects.nodupKeys above below

/-- No object that is or was part of the state is in debt; `mine` are these objects, and
those that are not handed out yet. -/
structure Credit (mine : Ref → Prop) (w : World) : Prop where
  above {ref : Ref} : w.next ≤ ref → mine ref
  visible {addr : Bytes} {ref : Ref} : AList.lookup addr w.state.stateObjects = some ref →
    mine ref ∧ ref < w.next
  nonneg {ref : Ref} : mine ref → ref < w.next → 0 ≤ (w.heap ref).balance

/-- The balance of an account. -/
def balanceAt (db : Database) (w : World) (addr : Bytes) : Int :=
  match AList.lookup addr w.state.stateObjects with
  | some ref => (w.heap ref).balance
  | none => ((w.state.trie.account db addr).map StateObject.balance).getD 0

theorem balanceAt_nonneg {db : Database} {addr : Bytes}
    (nonneg : ∀ ref, AList.lookup addr w.state.stateObjects = some ref →
      0 ≤ (w.heap ref).balance) : 0 ≤ w.balanceAt db addr := by
  unfold balanceAt
  split
  · exact nonneg _ ‹_›
  · cases account : w.state.trie.account db addr with
    | none => exact le_rfl
    | some object =>
        obtain ⟨data, -, read⟩ := Option.bind_eq_some_iff.mp account
        split at read
        · cases read
        · exact StateObject.fromBytes_nonneg read

/-- The objects of a state without debts. -/
theorem Sound.credit (sound : w.Sound) {db : Database}
    (nonneg : ∀ addr, 0 ≤ w.balanceAt db addr) :
    w.Credit fun ref =>
      (∃ addr, AList.lookup addr w.state.stateObjects = some ref) ∨ w.next ≤ ref where
  above := .inr
  visible found := ⟨.inl ⟨_, found⟩, (sound.held found).1⟩
  nonneg {ref} own below := by
    rcases own with ⟨addr, found⟩ | above
    · simpa only [balanceAt, found] using nonneg addr
    · exact absurd below above.not_gt

variable {mine : Ref → Prop}

namespace Credit

theorem keeps {after : World} (credit : w.Credit mine) (keeps : Keeps w after) :
    after.Credit mine where
  above later := credit.above (keeps.next_le.trans later)
  visible found := by
    rcases keeps.fresh found with old | ⟨above, below⟩
    · obtain ⟨own, below⟩ := credit.visible old
      exact ⟨own, below.trans_le keeps.next_le⟩
    · exact ⟨credit.above above, below⟩
  nonneg {ref} own below := by
    by_cases old : ref < w.next
    · rw [keeps.balance_eq old]
      exact credit.nonneg own old
    · exact keeps.nonneg (not_lt.mp old) below

theorem modify (credit : w.Credit mine) {ref : Ref} {change : StateObject → StateObject}
    (nonneg : mine ref → ref < w.next → 0 ≤ (change (w.heap ref)).balance) :
    (w.modify ref change).Credit mine where
  above := credit.above
  visible := credit.visible
  nonneg {other} own below := by
    by_cases same : other = ref
    · subst same
      rw [heap_modify_self]
      exact nonneg own below
    · rw [heap_modify_of_ne same]
      exact credit.nonneg own below

theorem addAmount (credit : w.Credit mine) (ref : Ref) {amount : Int} (nonneg : 0 ≤ amount) :
    (w.modify ref (.addAmount amount)).Credit mine :=
  credit.modify fun own below => add_nonneg (credit.nonneg own below) nonneg

theorem subAmount (credit : w.Credit mine) {ref : Ref} {amount : Int}
    (covered : amount ≤ (w.heap ref).balance) : (w.modify ref (.subAmount amount)).Credit mine :=
  credit.modify fun _ _ => sub_nonneg.mpr covered

theorem install (credit : w.Credit mine) (addr : Bytes) {object : StateObject}
    (nonneg : 0 ≤ object.balance) : (w.install addr object).Credit mine where
  above later := credit.above ((Nat.le_succ _).trans later)
  visible {other ref} found := by
    rw [lookup_install] at found
    split at found
    · cases found
      exact ⟨credit.above le_rfl, Nat.lt_succ_self _⟩
    · obtain ⟨own, below⟩ := credit.visible found
      exact ⟨own, below.trans (Nat.lt_succ_self _)⟩
  nonneg {ref} own below := by
    rcases (Nat.lt_succ_iff.mp below).eq_or_lt with rfl | old
    · rwa [heap_install_next]
    · rw [heap_install_of_lt old]
      exact credit.nonneg own old

theorem set (credit : w.Credit mine) {copied : State StateObject} (nonneg : copied.Nonneg) :
    (w.set copied).Credit mine where
  above later := credit.above ((next_le_set w copied).trans later)
  visible {addr ref} found := by
    rcases lookup_set_cases w copied addr with ⟨held, -, heldEq, -, above, below, -⟩ | ⟨absent, -⟩
    · obtain rfl : held = ref := Option.some.inj (heldEq.symm.trans found)
      exact ⟨credit.above above, below⟩
    · cases absent.symm.trans found
  nonneg {ref} own below := by
    by_cases old : ref < w.next
    · rw [heap_set_of_lt old]
      exact credit.nonneg own old
    · obtain ⟨entry, member, heapEq⟩ := heap_set_new (not_lt.mp old) below
      rw [heapEq]
      exact nonneg entry member

theorem copy (credit : w.Credit mine) : w.copy.Nonneg := by
  intro entry member
  obtain ⟨held, heldMember, rfl⟩ := List.mem_map.mp member
  obtain ⟨own, below⟩ := credit.visible (AList.mem_lookup_iff.mpr heldMember)
  exact credit.nonneg own below

end Credit

end World

namespace Machine

open World

theorem balance_transferred (w : World) (caller object ref : Ref) (value : Int) :
    ((transferred w caller object value).heap ref).balance =
      (w.heap ref).balance - (if ref = caller then value else 0) +
        (if ref = object then value else 0) := by
  by_cases receives : ref = object
  · subst receives
    by_cases sends : ref = caller
    · subst sends
      simp [transferred, StateObject.addAmount, StateObject.subAmount]
    · simp [transferred, heap_modify_of_ne sends, StateObject.addAmount, sends]
  · by_cases sends : ref = caller
    · subst sends
      simp [transferred, heap_modify_of_ne receives, StateObject.subAmount, receives]
    · simp [transferred, heap_modify_of_ne receives, heap_modify_of_ne sends, sends, receives]

theorem balance_bequeathed (w : World) (object receiver ref : Ref) :
    ((bequeathed w object receiver).heap ref).balance =
      (w.heap ref).balance + if ref = receiver then (w.heap object).balance else 0 := by
  have marked : ((bequeathed w object receiver).heap ref).balance =
      ((w.modify receiver (.addAmount (w.heap object).balance)).heap ref).balance := by
    by_cases same : ref = object
    · rw [same, bequeathed, heap_modify_self]
      rfl
    · rw [bequeathed, heap_modify_of_ne same]
  rw [marked]
  by_cases receives : ref = receiver
  · subst receives
    simp [StateObject.addAmount]
  · simp [heap_modify_of_ne receives, receives]

/-- The machine acts for objects that are or were part of the state, and goes back to
copies of such states. -/
structure Credit (mine : Ref → Prop) (m : Machine) : Prop where
  world : m.world.Credit mine
  acting {ref : Ref} : m.control.object = some ref → mine ref ∧ ref < m.world.next
  waiting {caller : Waiting} : caller ∈ m.waiting →
    (mine caller.closure.object ∧ caller.closure.object < m.world.next) ∧ caller.snapshot.Nonneg

/-- A message that is executed now does not have a negative value. -/
def Gives (m : Machine) : Prop :=
  match m.control with
  | .executing msg _ => 0 ≤ msg.value
  | _ => True

instance (m : Machine) : Decidable m.Gives := by
  unfold Gives
  split <;> infer_instance

variable {mine : Ref → Prop} {env : Env} {db : Database} {m after : Machine}

theorem Credit.deed (credit : m.Credit mine) (gives : m.Gives) (deed : Deed env db m after) :
    after.Credit mine := by
  have later : ∀ {w : World}, m.world.next ≤ w.next → ∀ {caller : Waiting}, caller ∈ m.waiting →
      (mine caller.closure.object ∧ caller.closure.object < w.next) ∧ caller.snapshot.Nonneg := by
    intro w le caller member
    obtain ⟨⟨own, below⟩, nonneg⟩ := credit.waiting member
    exact ⟨⟨own, below.trans_le le⟩, nonneg⟩
  cases deed with
  | mild world waiting acting =>
      have keeps := world.keeps
      refine ⟨credit.world.keeps keeps, fun isActing => ?_,
        fun member => later keeps.next_le (waiting.mem member)⟩
      rcases acting _ isActing with same | ⟨caller, member, rfl⟩
      · obtain ⟨own, below⟩ := credit.acting same
        exact ⟨own, below.trans_le keeps.next_le⟩
      · exact (later keeps.next_le member).1
  | send caller msg copied loaded world running control waiting snapshot =>
      have keeps := loaded.keeps.trans world.keeps
      have sender : mine caller.closure.object ∧ caller.closure.object < after.world.next := by
        obtain ⟨own, below⟩ := credit.acting running
        exact ⟨own, below.trans_le keeps.next_le⟩
      refine ⟨credit.world.keeps keeps, fun isActing => ?_, fun member => ?_⟩
      · obtain rfl : caller.closure.object = _ := by simpa [control, Control.object] using isActing
        exact sender
      · rcases List.mem_cons.mp (waiting ▸ member) with rfl | member
        · refine ⟨sender, ?_⟩
          rw [snapshot]
          exact (credit.world.keeps loaded.keeps).copy
        · exact later keeps.next_le member
  | transfer msg caller object loaded executing covered ordinary found world waiting acting =>
      obtain ⟨loads, lookupEq⟩ := keeps_getOrNewStateObject found
      have loadedCredit := credit.world.keeps loads
      have sender := (credit.acting (by rw [executing]; rfl) : mine caller ∧ caller < m.world.next)
      have value : 0 ≤ msg.value := by simpa only [Gives, executing] using gives
      have moved : (transferred loaded caller object msg.value).Credit mine := by
        refine (loadedCredit.subAmount ?_).addAmount object value
        rwa [loads.balance_eq sender.2]
      have keeps := world.keeps
      have next_le : m.world.next ≤ after.world.next := loads.next_le.trans keeps.next_le
      refine ⟨moved.keeps keeps, fun isActing => ?_,
        fun member => later next_le (waiting.mem member)⟩
      rw [acting _ isActing]
      obtain ⟨own, below⟩ := loadedCredit.visible lookupEq
      exact ⟨own, below.trans_le keeps.next_le⟩
  | bequeath closure l addr rest receiver loaded running suicide stack found world waiting acting =>
      obtain ⟨loads, lookupEq⟩ := keeps_getOrNewStateObject found
      have loadedCredit := credit.world.keeps loads
      obtain ⟨own, below⟩ : mine closure.object ∧ closure.object < m.world.next :=
        credit.acting (by rw [running]; rfl)
      have estate := loadedCredit.nonneg own (below.trans_le loads.next_le)
      refine ⟨?_, fun isActing => absurd (acting.symm.trans isActing) (by simp), fun member => ?_⟩
      · rw [world]
        have given := loadedCredit.addAmount receiver estate
        exact given.modify given.nonneg
      · rw [world]
        exact later loads.next_le (waiting ▸ member)
  | revert result caller returning failed waiting world running =>
      obtain ⟨⟨own, below⟩, nonneg⟩ := credit.waiting (waiting ▸ List.mem_cons_self)
      have next_le : m.world.next ≤ after.world.next := world ▸ next_le_set _ _
      refine ⟨world ▸ credit.world.set nonneg, fun isActing => ?_,
        fun member => later next_le (waiting ▸ List.mem_cons_of_mem _ member)⟩
      obtain rfl : caller.closure.object = _ := by simpa [running] using isActing
      exact ⟨own, below.trans_le next_le⟩

theorem Deed.next_le (deed : Deed env db m after) : m.world.next ≤ after.world.next := by
  cases deed with
  | mild world _ _ => exact world.keeps.next_le
  | send _ _ _ loaded world _ _ _ _ => exact (loaded.keeps.trans world.keeps).next_le
  | transfer _ _ _ _ _ _ _ found world _ _ =>
      exact (keeps_getOrNewStateObject found).1.next_le.trans world.keeps.next_le
  | bequeath _ _ _ _ _ _ _ _ _ found world _ _ =>
      exact world ▸ (keeps_getOrNewStateObject found).1.next_le
  | revert _ _ _ _ _ world _ => exact world ▸ next_le_set _ _

/-- The object keeps an amount when it sends a message. -/
def Reserves (ref : Ref) (amount : Int) (m : Machine) : Prop :=
  match m.control with
  | .executing msg caller => caller = ref → amount + msg.value ≤ (m.world.heap ref).balance
  | _ => True

instance (ref : Ref) (amount : Int) (m : Machine) : Decidable (m.Reserves ref amount) := by
  unfold Reserves
  split <;> infer_instance

/-- An object that reserves an amount does not fall below it. -/
theorem Credit.reserve (credit : m.Credit mine) (gives : m.Gives) {ref : Ref} {amount : Int}
    (reserves : m.Reserves ref amount) (below : ref < m.world.next)
    (reserve : amount ≤ (m.world.heap ref).balance) (deed : Deed env db m after) :
    amount ≤ (after.world.heap ref).balance := by
  cases deed with
  | mild world waiting acting => rwa [world.keeps.balance_eq below]
  | send caller msg copied loaded world running control waiting snapshot =>
      rwa [(loaded.keeps.trans world.keeps).balance_eq below]
  | transfer msg caller object loaded executing covered ordinary found world waiting acting =>
      obtain ⟨loads, -⟩ := keeps_getOrNewStateObject found
      have value : 0 ≤ msg.value := by simpa only [Gives, executing] using gives
      have kept : caller = ref → amount + msg.value ≤ (m.world.heap ref).balance := by
        simpa only [Reserves, executing] using reserves
      have there : ref < (transferred loaded caller object msg.value).next :=
        below.trans_le loads.next_le
      rw [world.keeps.balance_eq there, balance_transferred, loads.balance_eq below]
      by_cases sends : ref = caller
      · have rest := kept sends.symm
        rw [if_pos sends]
        split <;> omega
      · rw [if_neg sends]
        split <;> omega
  | bequeath closure l addr rest receiver loaded running suicide stack found world waiting acting =>
      obtain ⟨loads, -⟩ := keeps_getOrNewStateObject found
      obtain ⟨own, objectBelow⟩ : mine closure.object ∧ closure.object < m.world.next :=
        credit.acting (by rw [running]; rfl)
      have estate := (credit.world.keeps loads).nonneg own (objectBelow.trans_le loads.next_le)
      rw [world, balance_bequeathed, loads.balance_eq below]
      split <;> omega
  | revert result caller returning failed waiting world running =>
      rwa [world, heap_set_of_lt below]

end Machine

end Thelonious
