import Thelonious.Util.RlpRoundTrip

/-!
# Values that represent an item

A byte string travels through the node as a `string`, as a `[]byte`, or, after
decoding, as a single `byte`.  A value represents an item when its accessors
cannot tell which of these it is.  The byte `0x00` is the exception: it encodes
like the empty string, so an item that contains the string `"\x00"` is not
represented by what the decoder returns for it.

The parameter `reread` tells whether the value may have come out of the decoder.
One that has not writes the empty byte string as a `string`, which is what a
comparison with `""` relies on.
-/

namespace Thelonious

mutual

/-- The dynamic types a trie node is made of. -/
def Value.Plain (reread : Bool) : Value → Prop
  | .str _ => True
  | .bytes data => reread ∨ data ≠ []
  | .byte single => reread ∧ 0 < single.toNat ∧ single.toNat < 0x80
  | .list items => Value.AllPlain reread items
  | _ => False

def Value.AllPlain (reread : Bool) : List Value → Prop
  | [] => True
  | item :: items => item.Plain reread ∧ Value.AllPlain reread items

end

/-- `value` is a representation of `item` that the accessors read as `item`. -/
def Value.Represents (reread : Bool) (value : Value) (item : Item) : Prop :=
  value.Plain reread ∧ value.content = item

mutual

/-- No string of the item is the single byte zero. -/
def Item.Clean : Item → Prop
  | .str data => data ≠ [0]
  | .list items => Item.AllClean items

def Item.AllClean : List Item → Prop
  | [] => True
  | item :: items => item.Clean ∧ Item.AllClean items

end

theorem Item.allClean_iff (items : List Item) :
    Item.AllClean items ↔ ∀ item ∈ items, item.Clean := by
  induction items with
  | nil => simp [Item.AllClean]
  | cons item items induction => simp [Item.AllClean, induction]

/-! ### Reading a represented item -/

theorem bigBytes_single {single : UInt8} (positive : 0 < single.toNat) :
    bigBytes single.toNat = [single] := by
  have bound := single.toNat_lt
  have digitsEq : Nat.digits 256 single.toNat = [single.toNat] :=
    Nat.digits_of_lt 256 _ (by omega) (by omega)
  simp [bigBytes, BigEndian.digits, digitsEq]

theorem stringOfByte_small {single : UInt8} (small : single.toNat < 0x80) :
    stringOfByte single = [single] := by
  have below : single < 0x80 := by
    rw [UInt8.lt_iff_toNat_lt]
    exact small
  simp [stringOfByte, below]

namespace Value.Represents

variable {reread : Bool} {value : Value} {data : Bytes}

theorem of_str (text : Bytes) : (Value.str text).Represents reread (.str text) :=
  ⟨trivial, rfl⟩

theorem of_bytes {data : Bytes} (nonempty : data ≠ []) :
    (Value.bytes data).Represents reread (.str data) :=
  ⟨.inr nonempty, rfl⟩

theorem str_cases (represents : value.Represents reread (.str data)) :
    value = .str data ∨ value = .bytes data ∨
      ∃ single, value = .byte single ∧ data = [single] ∧
        stringOfByte single = [single] := by
  obtain ⟨plain, contentEq⟩ := represents
  cases value with
  | str text =>
      simp only [Value.content, Item.str.injEq] at contentEq
      exact Or.inl (by rw [contentEq])
  | bytes text =>
      simp only [Value.content, Item.str.injEq] at contentEq
      exact Or.inr (Or.inl (by rw [contentEq]))
  | byte single =>
      simp only [Value.content, Item.str.injEq] at contentEq
      obtain ⟨-, positive, small⟩ := plain
      rw [bigBytes_single positive] at contentEq
      exact Or.inr (Or.inr ⟨single, rfl, contentEq.symm, stringOfByte_small small⟩)
  | _ => simp [Value.Plain, Value.content] at plain contentEq

theorem asStr_eq (represents : value.Represents reread (.str data)) : value.asStr = data := by
  rcases represents.str_cases with rfl | rfl | ⟨single, rfl, rfl, textEq⟩
  · rfl
  · rfl
  · exact textEq

theorem asBytes_eq (represents : value.Represents reread (.str data)) :
    value.asBytes = data := by
  rcases represents.str_cases with rfl | rfl | ⟨single, rfl, rfl, textEq⟩ <;> rfl

theorem len_eq (represents : value.Represents reread (.str data)) :
    value.len = data.length := by
  rcases represents.str_cases with rfl | rfl | ⟨single, rfl, rfl, textEq⟩ <;> rfl

theorem get_eq_nil (represents : value.Represents reread (.str data)) (index : Nat) :
    value.get index = .nil := by
  rcases represents.str_cases with rfl | rfl | ⟨single, rfl, rfl, textEq⟩ <;> rfl

theorem isNil_eq {item : Item} (represents : value.Represents reread item) :
    value.isNil = false := by
  obtain ⟨plain, -⟩ := represents
  cases value with
  | nil => simp [Value.Plain] at plain
  | _ => rfl

theorem encode_eq {item : Item} (represents : value.Represents reread item) :
    encode value = item.encode := by
  rw [encode_eq_encode_content, represents.2]

end Value.Represents

variable {reread : Bool}

private theorem forall₂_of_allPlain (values : List Value)
    (plain : Value.AllPlain reread values) :
    List.Forall₂ (Value.Represents reread) values (Value.contents values) := by
  induction values with
  | nil => exact List.Forall₂.nil
  | cons value values induction =>
      exact List.Forall₂.cons ⟨plain.1, rfl⟩ (induction plain.2)

private theorem allPlain_of_forall₂ {values : List Value} {items : List Item}
    (represent : List.Forall₂ (Value.Represents reread) values items) :
    Value.AllPlain reread values ∧ Value.contents values = items := by
  induction represent with
  | nil => exact ⟨trivial, rfl⟩
  | cons head tail induction =>
      exact ⟨⟨head.1, induction.1⟩, by rw [Value.contents, head.2, induction.2]⟩

theorem represents_list_iff {value : Value} {items : List Item} :
    value.Represents reread (.list items) ↔
      ∃ values, value = .list values ∧
        List.Forall₂ (Value.Represents reread) values items := by
  constructor
  · rintro ⟨plain, contentEq⟩
    cases value with
    | list values =>
        simp only [Value.content, Item.list.injEq] at contentEq
        exact ⟨values, rfl, contentEq ▸ forall₂_of_allPlain values plain⟩
    | _ => simp [Value.Plain, Value.content] at plain contentEq
  · rintro ⟨values, rfl, represent⟩
    obtain ⟨plain, contentsEq⟩ := allPlain_of_forall₂ represent
    exact ⟨plain, by rw [Value.content, contentsEq]⟩

/-- A represented list of known length, slot by slot. -/
theorem represents_ofFn_iff {size : Nat} {value : Value} {slots : Fin size → Item} :
    value.Represents reread (.list (List.ofFn slots)) ↔
      ∃ values, value = .list values ∧ values.length = size ∧
        ∀ i : Fin size, (values.getD i .nil).Represents reread (slots i) := by
  rw [represents_list_iff]
  refine exists_congr fun values => and_congr_right fun _ => ?_
  rw [List.forall₂_iff_get]
  simp only [List.length_ofFn, List.get_eq_getElem, List.getElem_ofFn]
  refine and_congr_right fun lengthEq => ⟨fun each i => ?_, fun each i bound _ => ?_⟩
  · have slot := each i (by rw [lengthEq]; exact i.isLt) i.isLt
    rwa [← List.getD_eq_getElem values .nil] at slot
  · have slot := each ⟨i, lengthEq ▸ bound⟩
    rwa [List.getD_eq_getElem values .nil bound] at slot

/-! ### Size -/

theorem length_le_length_encodeBytes (data : Bytes) :
    data.length ≤ (encodeBytes data).length := by
  unfold encodeBytes
  split
  · exact Nat.le_refl _
  · split
    · simp
    · simp only [List.length_cons, List.length_append]
      omega

theorem length_encodeBytes_le {data : Bytes} (fits : data.length < 2 ^ 64) :
    (encodeBytes data).length ≤ data.length + 9 := by
  unfold encodeBytes
  split
  · omega
  · split
    · simp
    · have digits : (BigEndian.digits data.length).length ≤ 8 := by
        rw [BigEndian.length_digits_le_iff]
        omega
      simp only [List.length_cons, List.length_append]
      omega

theorem length_sliceHeader_le {length : Nat} (fits : length < 2 ^ 64) :
    (sliceHeader length).length ≤ 9 := by
  unfold sliceHeader
  split
  · simp
  · have digits : (BigEndian.digits length).length ≤ 8 := by
      rw [BigEndian.length_digits_le_iff]
      omega
    simp only [List.length_cons]
    omega

mutual

theorem Value.fits_of_length_encode (value : Value)
    (short : (encode value).length < 2 ^ 64) : value.Fits := by
  cases value with
  | nil => trivial
  | list items =>
      simp only [encode, List.length_append] at short
      exact ⟨by omega, Value.allFit_of_length_encodeItems items (by omega)⟩
  | _ => exact Nat.lt_of_le_of_lt (length_le_length_encodeBytes _) short

theorem Value.allFit_of_length_encodeItems (items : List Value)
    (short : (encodeItems items).length < 2 ^ 64) : Value.AllFit items := by
  cases items with
  | nil => trivial
  | cons item items =>
      simp only [encodeItems, List.length_append] at short
      exact ⟨Value.fits_of_length_encode item (by omega),
        Value.allFit_of_length_encodeItems items (by omega)⟩

end

/-! ### Items -/

mutual

/-- The representation of an item by strings. -/
def Item.toValue : Item → Value
  | .str data => .str data
  | .list items => .list (Item.toValues items)

def Item.toValues : List Item → List Value
  | [] => []
  | item :: items => item.toValue :: Item.toValues items

end

mutual

theorem Item.content_toValue (item : Item) : item.toValue.content = item := by
  cases item with
  | str data => rfl
  | list items => rw [Item.toValue, Value.content, Item.contents_toValues items]

theorem Item.contents_toValues (items : List Item) :
    Value.contents (Item.toValues items) = items := by
  cases items with
  | nil => rfl
  | cons item items =>
      rw [Item.toValues, Value.contents, Item.content_toValue item,
        Item.contents_toValues items]

end

theorem Item.encode_toValue (item : Item) : Thelonious.encode item.toValue = item.encode := by
  rw [encode_eq_encode_content, item.content_toValue]

theorem Item.encode_injective {left right : Item} (leftFits : left.encode.length < 2 ^ 64)
    (same : left.encode = right.encode) : left = right := by
  rw [← Item.encode_toValue, ← Item.encode_toValue] at same
  have leftLength : (Thelonious.encode left.toValue).length < 2 ^ 64 := by
    rwa [Item.encode_toValue]
  have contentEq := content_eq_of_encode_eq
    (Value.fits_of_length_encode _ leftLength)
    (Value.fits_of_length_encode _ (same ▸ leftLength)) same
  rwa [Item.content_toValue, Item.content_toValue] at contentEq

private theorem represents_decodedBytes {data : Bytes} (clean : data ≠ [0]) :
    (decodedBytes data).Represents true (.str data) := by
  unfold decodedBytes
  split
  · rename_i single
    obtain ⟨byte, rfl⟩ := List.length_eq_one_iff.mp single.1
    have small : byte.toNat < 0x80 := by
      have le := single.2
      simp only [List.headD_cons, UInt8.le_iff_toNat_le] at le
      exact Nat.lt_succ_of_le le
    have positive : 0 < byte.toNat := by
      rcases Nat.eq_zero_or_pos byte.toNat with zero | positive
      · exact absurd (by rw [UInt8.toNat_inj.mp (zero.trans UInt8.toNat_zero.symm)]) clean
      · exact positive
    exact ⟨⟨rfl, positive, small⟩, congrArg Item.str (bigBytes_single positive)⟩
  · exact ⟨.inl rfl, rfl⟩

mutual

theorem Item.represents_decoded (item : Item) (clean : item.Clean) :
    item.decoded.Represents true item := by
  cases item with
  | str data => exact represents_decodedBytes clean
  | list items =>
      exact represents_list_iff.mpr
        ⟨Item.decodedAll items, rfl, Item.represents_decodedAll items clean⟩

theorem Item.represents_decodedAll (items : List Item) (clean : Item.AllClean items) :
    List.Forall₂ (Value.Represents true) (Item.decodedAll items) items := by
  cases items with
  | nil => exact List.Forall₂.nil
  | cons item items =>
      exact List.Forall₂.cons (Item.represents_decoded item clean.1)
        (Item.represents_decodedAll items clean.2)

end

/-- What the decoder makes of the encoding of a clean item represents it. -/
theorem Item.newValueFromBytes_encode {item : Item} (clean : item.Clean)
    (fits : item.encode.length < 2 ^ 64) :
    ∃ value, newValueFromBytes item.encode = some value ∧ value.Represents true item := by
  refine ⟨item.decoded, ?_, item.represents_decoded clean⟩
  rw [← Item.encode_toValue] at fits ⊢
  rw [Thelonious.newValueFromBytes_encode _ (Value.fits_of_length_encode _ fits),
    Item.content_toValue]

end Thelonious
