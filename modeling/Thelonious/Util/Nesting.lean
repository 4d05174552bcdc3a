import Thelonious.Util.RlpBounds

/-!
# Lists inside lists

The loop of `_Decode` counts the bytes its elements have taken and stops when there are enough
of them.  It does not ask whether the last element has taken too many: an element may announce
more bytes than the list around it has left.  The lists that are read from their own bytes are
the ones whose elements fill them, as far as the headers say.
-/

namespace Thelonious

/-- Where the header says that the byte or the byte string at `pos` ends. -/
def textEnd (data : Bytes) (pos : Nat) : Option Nat := do
  let char ← data[pos]?
  if char ≤ 0x7f then return pos + 1
  else if char ≤ 0xb7 then
    let stop := pos + 1 + (char.toNat - 0x80)
    if stop ≤ data.length then return stop else none
  else if char ≤ 0xbf then
    let b := char.toNat - 0xb7
    let stop := pos + 1 + b + readVarInt (← slice data (pos + 1) (pos + 1 + b))
    if stop ≤ data.length then return stop else none
  else none

mutual

/-- The item at `pos` ends at `stop`, as its header says, and what is in it fills it. -/
inductive WellNested (data : Bytes) : Nat → Nat → Prop
  | text {pos stop : Nat} (header : textEnd data pos = some stop) : WellNested data pos stop
  | list {pos h b : Nat} (header : listHeader data pos = some (h, b))
      (filled : FilledBy data (pos + h) (pos + h + b)) : WellNested data pos (pos + h + b)

/-- The bytes from `pos` to `stop` are taken by items, one after the other. -/
inductive FilledBy (data : Bytes) : Nat → Nat → Prop
  | nothing {pos : Nat} : FilledBy data pos pos
  | item {pos middle stop : Nat} (first : WellNested data pos middle)
      (rest : FilledBy data middle stop) : FilledBy data pos stop

end

mutual

/-- A list that was read from `pos` on ends at `stop`, behind the payload that its header
announces, and its elements were read from that payload. -/
def ReadInside (data : Bytes) : Value → Nat → Nat → Prop
  | .list items, pos, stop => ∃ h b, listHeader data pos = some (h, b) ∧ stop = pos + h + b ∧
      ElementsInside data items (pos + h) stop
  | _, _, _ => True

/-- The elements were read one after the other, up to `stop` and not beyond it. -/
def ElementsInside (data : Bytes) : List Value → Nat → Nat → Prop
  | [], pos, stop => pos = stop
  | item :: items, pos, stop => ∃ next, decode data pos = some (item, next) ∧ next ≤ stop ∧
      ReadInside data item pos next ∧ ElementsInside data items next stop

end

variable {data : Bytes} {pos stop fuel : Nat} {value : Value}

/-! ### One item -/

theorem slice_of_le {low high : Nat} (order : low ≤ high) :
    slice data low high = if high ≤ data.length then some ((data.drop low).take (high - low))
      else none := by
  simp [slice, order]

theorem textEnd_eq (data : Bytes) (pos : Nat) :
    textEnd data pos = (textAt data pos).map Prod.snd := by
  rw [textEnd, textAt]
  cases data[pos]? with
  | none => rfl
  | some char =>
      simp only [Option.bind_eq_bind, Option.bind_some]
      split
      · rfl
      split
      · rw [slice_of_le (Nat.le_add_right _ _)]
        split <;> rfl
      split
      · cases slice data (pos + 1) (pos + 1 + (char.toNat - 0xb7)) with
        | none => rfl
        | some digits =>
            rw [Option.bind_some, Option.bind_some, slice_of_le (Nat.le_add_right _ _)]
            split <;> rfl
      · rfl

/-- Where there is a byte or a byte string there is no list. -/
theorem listHeader_of_text {text : Value × Nat} (read : textAt data pos = some text) :
    listHeader data pos = none := by
  obtain ⟨char, isChar, read⟩ := Option.bind_eq_some_iff.mp read
  rw [listHeader, isChar, Option.bind_eq_bind, Option.bind_some]
  split_ifs at read with byte short long
  · exact if_pos (UInt8.le_trans byte (by decide))
  · exact if_pos (UInt8.le_trans short (by decide))
  · exact if_pos long

/-! ### Whole items -/

/-- Whatever there is at `pos` is read up to `stop`, and from its own bytes. -/
def Decodes (data : Bytes) (pos stop : Nat) : Prop :=
  pos < stop ∧ stop ≤ data.length ∧ ∃ value, ReadInside data value pos stop ∧
    ∀ fuel, 2 * (stop - pos) ≤ fuel → decodeAt fuel data pos = some (value, stop)

/-- The loop reads elements up to `stop`. -/
def DecodesAll (data : Bytes) (pos stop : Nat) : Prop :=
  pos ≤ data.length → pos ≤ stop ∧ stop ≤ data.length ∧
    ∃ items, ElementsInside data items pos stop ∧
      ∀ fuel i, 2 * (stop - pos) + 1 ≤ fuel →
        decodeItems fuel data pos i (i + (stop - pos)) = some (items, stop)

theorem decodes_text (header : textEnd data pos = some stop) : Decodes data pos stop := by
  rw [textEnd_eq] at header
  obtain ⟨⟨text, stop⟩, read, rfl⟩ := Option.map_eq_some_iff.mp header
  obtain ⟨isText, advances, inside⟩ := textAt_spec read
  refine ⟨advances, inside, text, ?_, fun fuel enough => ?_⟩
  · obtain ⟨single, rfl⟩ | ⟨ret, rfl⟩ := isText
    · trivial
    · trivial
  · obtain ⟨less, rfl⟩ : ∃ less, fuel = less + 1 := ⟨fuel - 1, by omega⟩
    rw [decodeAt_succ, listHeader_of_text read]
    exact read

theorem decodes_list {h b : Nat} (header : listHeader data pos = some (h, b))
    (elements : DecodesAll data (pos + h) (pos + h + b)) : Decodes data pos (pos + h + b) := by
  obtain ⟨positive, inside⟩ := listHeader_bound header
  obtain ⟨-, bound, items, elementsInside, read⟩ := elements inside
  refine ⟨by omega, bound, .list items, ⟨h, b, header, rfl, elementsInside⟩,
    fun fuel enough => ?_⟩
  obtain ⟨less, rfl⟩ : ∃ less, fuel = less + 1 := ⟨fuel - 1, by omega⟩
  have listed := read less 0 (by omega)
  rw [Nat.zero_add, Nat.add_sub_cancel_left] at listed
  rw [decodeAt_succ, header, Option.elim_some, listed, Option.map_some]

theorem decodesAll_nothing : DecodesAll data pos pos := by
  intro inside
  refine ⟨Nat.le_refl pos, inside, [], rfl, fun fuel i enough => ?_⟩
  obtain ⟨less, rfl⟩ : ∃ less, fuel = less + 1 := ⟨fuel - 1, by omega⟩
  rw [decodeItems, if_neg (by omega)]

theorem decodesAll_item {middle : Nat} (first : Decodes data pos middle)
    (rest : DecodesAll data middle stop) : DecodesAll data pos stop := by
  intro inside
  obtain ⟨advances, bound, value, valueInside, read⟩ := first
  obtain ⟨follows, restBound, items, elements, readRest⟩ := rest bound
  have decoded : decode data pos = some (value, middle) := read _ (by omega)
  refine ⟨by omega, restBound, value :: items,
    ⟨middle, decoded, follows, valueInside, elements⟩, fun fuel i enough => ?_⟩
  obtain ⟨less, rfl⟩ : ∃ less, fuel = less + 1 := ⟨fuel - 1, by omega⟩
  have later := readRest less (i + (middle - pos)) (by omega)
  rw [show i + (middle - pos) + (stop - middle) = i + (stop - pos) by omega] at later
  rw [decodeItems, if_pos (by omega)]
  exact Option.bind_eq_some_iff.mpr ⟨(value, middle), read less (by omega),
    Option.bind_eq_some_iff.mpr ⟨(items, stop), later, rfl⟩⟩

/-- An item whose parts fill it is read from its own bytes. -/
theorem WellNested.decodes (nested : WellNested data pos stop) : Decodes data pos stop :=
  @WellNested.rec data (fun pos stop _ => Decodes data pos stop)
    (fun pos stop _ => DecodesAll data pos stop) decodes_text
    (fun header _ elements => decodes_list header elements) decodesAll_nothing
    (fun _ _ first rest => decodesAll_item first rest) pos stop nested

theorem FilledBy.decodesAll (filled : FilledBy data pos stop) : DecodesAll data pos stop :=
  @FilledBy.rec data (fun pos stop _ => Decodes data pos stop)
    (fun pos stop _ => DecodesAll data pos stop) decodes_text
    (fun header _ elements => decodes_list header elements) decodesAll_nothing
    (fun _ _ first rest => decodesAll_item first rest) pos stop filled

mutual

/-- What was read from its own bytes has parts that fill it. -/
theorem ReadInside.wellNested (value : Value) {pos stop : Nat}
    (read : decode data pos = some (value, stop)) (inside : ReadInside data value pos stop) :
    WellNested data pos stop := by
  rcases decodeAt_cases read with ⟨-, text⟩ | ⟨-, -, -, items, -, -, -, rfl⟩
  · exact .text (by rw [textEnd_eq, text, Option.map_some])
  · obtain ⟨h, b, header, rfl, elements⟩ := inside
    exact .list header (ElementsInside.filledBy items elements)

theorem ElementsInside.filledBy (items : List Value) {pos stop : Nat}
    (inside : ElementsInside data items pos stop) : FilledBy data pos stop := by
  cases items with
  | nil =>
      obtain rfl : pos = stop := inside
      exact .nothing
  | cons item items =>
      obtain ⟨next, read, -, itemInside, rest⟩ := inside
      exact .item (ReadInside.wellNested item read itemInside)
        (ElementsInside.filledBy items rest)

end

/-- A list that `Decode` returns ends behind the payload that its header announces, with all
elements read from that payload, exactly when the items that are in it, as their headers say,
fill it. -/
theorem decode_list_inside_iff (data : Bytes) (pos h b : Nat) (value : Value) (stop : Nat)
    (header : listHeader data pos = some (h, b)) (read : decode data pos = some (value, stop)) :
    (stop = pos + h + b ∧ ∃ items, value = .list items ∧
      ElementsInside data items (pos + h) (pos + h + b)) ↔
    FilledBy data (pos + h) (pos + h + b) := by
  constructor
  · rintro ⟨-, items, -, inside⟩
    exact inside.filledBy items
  · intro filled
    obtain ⟨-, bound, items, elements, reads⟩ := filled.decodesAll (listHeader_bound header).2
    have listed := reads (2 * data.length + 1) 0 (by omega)
    rw [Nat.zero_add, Nat.add_sub_cancel_left] at listed
    rw [decode, decodeAt_succ, header, Option.elim_some, listed, Option.map_some] at read
    cases read
    exact ⟨rfl, items, rfl, elements⟩

/-- A list with a list in it, and an empty string behind that. -/
def nestedData : Bytes := [0xc3, 0xc1, 5, 0x80]

theorem filledBy_nestedData : FilledBy nestedData 1 4 := by
  have five : WellNested nestedData 2 3 := .text (by decide +kernel)
  have empty : WellNested nestedData 3 4 := .text (by decide +kernel)
  have inner : WellNested nestedData 1 3 :=
    .list (h := 1) (b := 1) (by decide +kernel) (.item five .nothing)
  exact .item inner (.item empty .nothing)

theorem decode_nestedData_inside : ∃ items,
    decode nestedData 0 = some (.list items, 4) ∧ ElementsInside nestedData items 1 4 := by
  have header : listHeader nestedData 0 = some (1, 3) := by decide +kernel
  have nested : WellNested nestedData 0 4 := .list (h := 1) (b := 3) header filledBy_nestedData
  obtain ⟨-, -, value, -, reads⟩ := nested.decodes
  have read : decode nestedData 0 = some (value, 4) := reads _ (by decide)
  obtain ⟨-, items, rfl, inside⟩ :=
    (decode_list_inside_iff nestedData 0 1 3 value 4 header read).mpr filledBy_nestedData
  exact ⟨items, read, inside⟩

/-- A list of one byte, whose element announces two bytes and takes three. -/
theorem decode_overruns_list :
    listHeader [0xc1, 0x82, 1, 2] 0 = some (1, 1) ∧
    (decode [0xc1, 0x82, 1, 2] 0).map (fun read => ((read.1.get 0).asBytes, read.2)) =
      some ([1, 2], 4) := by
  constructor
  · decide +kernel
  · decide +kernel

end Thelonious
