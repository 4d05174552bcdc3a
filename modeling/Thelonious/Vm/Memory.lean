import Thelonious.Vm.OpCode

/-!
# The memory of a closure

What `Get`, `Set` and `Resize` do to the bytes of the memory, as long as offsets and
sizes are in the address space.  A byte behind the end of the memory counts as zero.
-/

namespace Thelonious

/-- The byte at a position; past the end it is zero. -/
def byteOrZero (bytes : Bytes) (pos : Nat) : UInt8 := bytes[pos]?.getD 0

@[simp] theorem byteOrZero_append_zeros (bytes : Bytes) (count pos : Nat) :
    byteOrZero (bytes ++ List.replicate count 0) pos = byteOrZero bytes pos := by
  unfold byteOrZero
  by_cases inside : pos < bytes.length
  · rw [List.getElem?_append_left inside]
  · rw [List.getElem?_append_right (not_lt.mp inside), List.getElem?_replicate,
      List.getElem?_eq_none (not_lt.mp inside)]
    split
    · rfl
    · rfl

theorem byteOrZero_take_drop (bytes : Bytes) {start stop pos : Nat} (inside : start + pos < stop) :
    byteOrZero ((bytes.take stop).drop start) pos = byteOrZero bytes (start + pos) := by
  rw [byteOrZero, List.getElem?_drop, List.getElem?_take, if_pos inside, byteOrZero]

namespace Memory

variable {store after value : Bytes} {size offset : Nat}

theorem zeros_of_le (small : size ≤ 2 ^ 48) :
    zeros size = some (List.replicate size 0) := if_neg (not_lt.mpr small)

theorem length_of_zeros {size : Nat} (made : zeros size = some value) : value.length = size := by
  unfold zeros at made
  split at made
  · cases made
  · cases made
    exact List.length_replicate

theorem resize_eq (small : size - store.length ≤ 2 ^ 48) :
    resize store size = some (store ++ List.replicate (size - store.length) 0) := by
  unfold resize
  split
  · rw [zeros_of_le small, Option.map_some]
  · rename_i enough
    rw [Nat.sub_eq_zero_of_le (not_lt.mp enough), List.replicate_zero, List.append_nil]

theorem length_resize (resized : resize store size = some after) :
    after.length = max store.length size := by
  unfold resize at resized
  split at resized
  · obtain ⟨newSlice, made, rfl⟩ := Option.map_eq_some_iff.mp resized
    rw [List.length_append, length_of_zeros made]
    omega
  · cases resized
    omega

/-- The two detours of `Set` cancel out: exactly the bytes that are missing are appended,
also to an empty memory and when none is missing. -/
theorem grow_eq {totSize : Int} (small : totSize < 2 ^ 63 - 1) (store : Bytes) :
    grow store totSize = (zeros (totSize - store.length).toNat).map (store ++ ·) := by
  unfold grow
  dsimp only
  split
  · rename_i longer
    obtain ⟨diff, diffEq⟩ : ∃ diff : Nat, totSize - ((store.length : Int) - 1) = diff :=
      ⟨_, (Int.toNat_of_nonneg (by omega)).symm⟩
    rw [diffEq, int64_natCast (by omega), if_pos (by omega)]
    congr 2
    omega
  · rw [show (totSize - store.length).toNat = 0 by omega, zeros_of_le (by omega)]
    simp

/-- The difference can only wrap around for an empty memory, and then nothing is appended. -/
theorem length_grow {totSize : Int} (bound : totSize < 2 ^ 63)
    (grown : grow store totSize = some after) (reaches : totSize ≤ after.length) :
    after.length = max store.length totSize.toNat := by
  by_cases small : totSize < 2 ^ 63 - 1
  · rw [grow_eq small] at grown
    obtain ⟨newSlice, made, rfl⟩ := Option.map_eq_some_iff.mp grown
    rw [List.length_append, length_of_zeros made]
    omega
  · unfold grow at grown
    dsimp only at grown
    split at grown
    · split at grown
      · obtain ⟨newSlice, made, rfl⟩ := Option.map_eq_some_iff.mp grown
        have least := le_int64 (totSize - ((store.length : Int) - 1))
        rename_i positive
        have most := int64_le (show -2 ^ 63 ≤ totSize - ((store.length : Int) - 1) by omega)
        rw [List.length_append, length_of_zeros made] at reaches ⊢
        omega
      · cases grown
        omega
    · cases grown
      omega

theorem length_overwrite (fits : offset + value.length ≤ store.length) :
    (overwrite store offset value).length = store.length := by
  simp only [overwrite, List.length_append, List.length_take, List.length_drop]
  omega

theorem byteOrZero_overwrite (fits : offset + value.length ≤ store.length) (pos : Nat) :
    byteOrZero (overwrite store offset value) pos =
      if offset ≤ pos ∧ pos < offset + value.length then byteOrZero value (pos - offset)
      else byteOrZero store pos := by
  have taken : (store.take offset).length = offset := by
    rw [List.length_take]
    omega
  unfold byteOrZero overwrite
  by_cases before : pos < offset
  · rw [if_neg (by omega), List.append_assoc, List.getElem?_append_left (by omega),
      List.getElem?_take, if_pos before]
  · by_cases inside : pos < offset + value.length
    · rw [if_pos (by omega), List.getElem?_append_left (by rw [List.length_append]; omega),
        List.getElem?_append_right (by omega), taken]
    · rw [if_neg (by omega), List.getElem?_append_right (by rw [List.length_append]; omega),
        List.getElem?_drop, List.length_append, taken]
      congr 2
      omega

theorem length_get_le {offset size : Int} (read : get store offset (int64 size) = some value)
    (nonneg : 0 ≤ size) : (value.length : Int) ≤ size := by
  unfold get at read
  split at read
  · dsimp only at read
    split at read
    · rename_i bounds
      cases read
      have least := le_int64 size
      have most : int64 size ≤ size := int64_le (by omega)
      have stop : int64 (offset + int64 size) ≤ offset + int64 size := int64_le (by omega)
      rw [List.length_drop, List.length_take]
      omega
    · cases read
  · cases read
    exact nonneg

/-- `Set` makes room for all the bytes it is told to write. -/
theorem length_set {offset size : Int} (written : set store offset size value = some after) :
    after.length = max store.length (int64 (offset + size)).toNat ∧ 0 ≤ offset ∧
      offset ≤ int64 (offset + size) := by
  obtain ⟨grown, grownEq, written⟩ := Option.bind_eq_some_iff.mp written
  split at written
  · rename_i bounds
    cases written
    obtain ⟨nonneg, ordered, fits⟩ := bounds
    refine ⟨?_, nonneg, ordered⟩
    rw [length_overwrite]
    · exact length_grow (int64_lt _) grownEq fits
    · rw [List.length_take]
      omega
  · cases written

theorem set_eq (small : offset + size ≤ 2 ^ 48) (store value : Bytes) :
    set store offset size value =
      some (overwrite (store ++ List.replicate (offset + size - store.length) 0) offset
        (value.take size)) := by
  have stop : int64 ((offset : Int) + size) = (offset + size : Nat) :=
    int64_natCast (show offset + size < 2 ^ 63 by omega)
  have room : (((offset + size : Nat) : Int) - store.length).toNat =
      offset + size - store.length := by
    omega
  have taken : (((offset + size : Nat) : Int) - offset).toNat = size := by omega
  unfold set
  dsimp only
  rw [stop, grow_eq (by omega), room, zeros_of_le (by omega), Option.map_some]
  simp only [Option.bind_eq_bind, Option.bind_some, List.length_append, List.length_replicate]
  rw [if_pos (by omega), taken, Int.toNat_natCast]
  rfl

theorem exists_set (small : offset + size ≤ 2 ^ 48) (store value : Bytes) :
    ∃ after, set store offset size value = some after ∧
      after.length = max store.length (offset + size) ∧
      ∀ pos, byteOrZero after pos =
        if offset ≤ pos ∧ pos < offset + min size value.length then byteOrZero value (pos - offset)
        else byteOrZero store pos := by
  have fits : offset + (value.take size).length ≤
      (store ++ List.replicate (offset + size - store.length) 0).length := by
    rw [List.length_append, List.length_replicate, List.length_take]
    omega
  refine ⟨_, set_eq small store value, ?_, ?_⟩
  · rw [length_overwrite fits, List.length_append, List.length_replicate]
    omega
  · intro pos
    rw [byteOrZero_overwrite fits, byteOrZero_append_zeros, List.length_take]
    split
    · rename_i inside
      rw [byteOrZero, List.getElem?_take, if_pos (by omega)]
      rfl
    · rfl

theorem get_eq (small : offset + size < 2 ^ 63) (store : Bytes) :
    get store offset size = some ((store.take (offset + size)).drop offset) := by
  have stop : int64 ((offset : Int) + size) = (offset + size : Nat) := int64_natCast small
  unfold get
  rw [stop]
  by_cases inside : offset < store.length
  · have taken : (min (store.length : Int) (offset + size : Nat)).toNat =
        min store.length (offset + size) := by omega
    rw [if_pos (by omega)]
    dsimp only
    rw [if_pos (by omega), taken, Int.toNat_natCast, min_comm, ← List.take_eq_take_min]
  · rw [if_neg (by omega), List.drop_eq_nil_of_le]
    rw [List.length_take]
    omega

/-! ### A growable array -/

/-- A growable array of bytes, which are zero until they are written. -/
@[ext] structure Growable where
  length : Nat
  byte : Nat → UInt8
  zero : ∀ pos, length ≤ pos → byte pos = 0

inductive Op
  | resize (size : Nat)
  | set (offset size : Nat) (value : Bytes)
  | get (offset size : Nat)

/-- The offset and the size are below `2 ^ 31`. -/
def Op.Small : Op → Prop
  | .resize size => size < 2 ^ 31
  | .set offset size _ => offset < 2 ^ 31 ∧ size < 2 ^ 31
  | .get offset size => offset < 2 ^ 31 ∧ size < 2 ^ 31

namespace Growable

def resize (array : Growable) (size : Nat) : Growable where
  length := max array.length size
  byte := array.byte
  zero pos past := array.zero pos (by omega)

def set (array : Growable) (offset size : Nat) (value : Bytes) : Growable where
  length := max array.length (offset + size)
  byte pos :=
    if offset ≤ pos ∧ pos < offset + min size value.length then byteOrZero value (pos - offset)
    else array.byte pos
  zero pos past := by
    rw [if_neg (by omega)]
    exact array.zero pos (by omega)

/-- The bytes from `offset` on, at most `size` of them. -/
def get (array : Growable) (offset size : Nat) : Bytes :=
  (List.range' offset (min array.length (offset + size) - offset)).map array.byte

/-- The array after an operation, and what is returned. -/
def perform (array : Growable) : Op → Growable × Bytes
  | .resize size => (array.resize size, [])
  | .set offset size value => (array.set offset size value, [])
  | .get offset size => (array, array.get offset size)

def run (array : Growable) : List Op → Growable × List Bytes
  | [] => (array, [])
  | op :: ops =>
      let (last, returned) := (array.perform op).1.run ops
      (last, (array.perform op).2 :: returned)

/-- The array that is kept in a memory. -/
def of (store : Bytes) : Growable where
  length := store.length
  byte := byteOrZero store
  zero pos past := by rw [byteOrZero, List.getElem?_eq_none past, Option.getD_none]

theorem get_of (store : Bytes) (offset size : Nat) :
    (of store).get offset size = (store.take (offset + size)).drop offset := by
  apply List.ext_getElem?
  intro pos
  rw [get, List.getElem?_map, List.getElem?_drop, List.getElem?_take,
    show (of store).length = store.length from rfl]
  by_cases inside : pos < min store.length (offset + size) - offset
  · have within : offset + pos < store.length := by omega
    rw [List.getElem?_range' inside, if_pos (by omega), Nat.one_mul, Option.map_some]
    simp [of, byteOrZero, List.getElem?_eq_getElem within]
  · rw [List.getElem?_eq_none (by rw [List.length_range']; exact not_lt.mp inside), Option.map_none]
    split
    · rw [List.getElem?_eq_none (by omega)]
    · rfl

end Growable

/-- The memory after an operation, and what is returned. -/
def perform (store : Bytes) : Op → Option (Bytes × Bytes)
  | .resize size => (resize store size).map (·, [])
  | .set offset size value => (set store offset size value).map (·, [])
  | .get offset size => (get store offset size).map (store, ·)

def run (store : Bytes) : List Op → Option (Bytes × List Bytes)
  | [] => some (store, [])
  | op :: ops => do
      let (next, returned) ← perform store op
      let (last, others) ← run next ops
      return (last, returned :: others)

/-- An operation does not go out of range, and does to the memory what it does to the
array. -/
theorem perform_refines {op : Op} (small : op.Small) (store : Bytes) :
    ∃ after, perform store op = some (after, ((Growable.of store).perform op).2) ∧
      Growable.of after = ((Growable.of store).perform op).1 := by
  cases op with
  | resize size =>
      have fits : size - store.length ≤ 2 ^ 48 := by
        have bound : size < 2 ^ 31 := small
        omega
      refine ⟨_, by rw [perform, resize_eq fits]; rfl, ?_⟩
      ext pos
      · simp only [Growable.of, Growable.perform, Growable.resize, List.length_append,
          List.length_replicate]
        omega
      · simp [Growable.of, Growable.perform, Growable.resize]
  | set offset size value =>
      have fits : offset + size ≤ 2 ^ 48 := by
        have bound : offset < 2 ^ 31 ∧ size < 2 ^ 31 := small
        omega
      obtain ⟨after, written, lengthEq, bytes⟩ := exists_set fits store value
      exact ⟨after, by rw [perform, written]; rfl, Growable.ext lengthEq (funext bytes)⟩
  | get offset size =>
      have fits : offset + size < 2 ^ 63 := by
        have bound : offset < 2 ^ 31 ∧ size < 2 ^ 31 := small
        omega
      refine ⟨store, ?_, rfl⟩
      rw [perform, get_eq fits, Growable.perform, Growable.get_of]
      rfl

/-- A run does not go out of range; it returns what it returns on the array, and the memory
keeps the array. -/
theorem growable_run (ops : List Op) (small : ∀ op ∈ ops, op.Small) (store : Bytes) :
    ∃ after, run store ops = some (after, ((Growable.of store).run ops).2) ∧
      Growable.of after = ((Growable.of store).run ops).1 := by
  induction ops generalizing store with
  | nil => exact ⟨store, rfl, rfl⟩
  | cons op ops induction =>
      obtain ⟨next, performed, nextEq⟩ := perform_refines (small op List.mem_cons_self) store
      obtain ⟨after, ran, afterEq⟩ :=
        induction (fun other member => small other (List.mem_cons_of_mem op member)) next
      rw [nextEq] at ran afterEq
      exact ⟨after, by simp [run, performed, ran, Growable.run], afterEq⟩

/-- The memory is empty at first; nothing is missing for the write of no bytes. -/
theorem growable_run_set_get :
    ∃ after, run [] [.set 0 0 [1], .set 2 3 [7, 8, 9, 10], .get 1 9, .resize 8] =
        some (after, [[], [], [0, 7, 8, 9], []]) ∧ after.length = 8 := by
  obtain ⟨after, ran, afterEq⟩ :=
    growable_run [.set 0 0 [1], .set 2 3 [7, 8, 9, 10], .get 1 9, .resize 8]
      (by simp [Op.Small]) []
  exact ⟨after, ran, congrArg Growable.length afterEq⟩

end Memory

end Thelonious
