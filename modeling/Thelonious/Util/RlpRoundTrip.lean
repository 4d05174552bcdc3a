import Thelonious.Util.Rlp

/-!
# Decoding undoes encoding

An encoding only remembers the byte strings and the nesting of a value.  That
content is an `Item`; the decoder returns a fixed rendering of it, in which a
one-byte string up to `0x7f` is a `byte`.  Everything below is for values that
fit the eight length bytes the format has room for.
-/

namespace Thelonious

/-- What an encoding keeps of a value. -/
inductive Item where
  | str (data : Bytes)
  | list (items : List Item)

mutual

def Value.content : Value → Item
  | .nil => .list []
  | .str text => .str text
  | .bytes data => .str data
  | .byte single => .str (bigBytes single.toNat)
  | .int number => .str (bigBytes number)
  | .uint64 number => .str (bigBytes number.toInt64.toInt)
  | .bigInt number => .str (bigBytes number)
  | .list items => .list (Value.contents items)

def Value.contents : List Value → List Item
  | [] => []
  | item :: items => item.content :: Value.contents items

end

mutual

def Item.encode : Item → Bytes
  | .str data => encodeBytes data
  | .list items => sliceHeader (Item.encodeAll items).length ++ Item.encodeAll items

def Item.encodeAll : List Item → Bytes
  | [] => []
  | item :: items => item.encode ++ Item.encodeAll items

end

/-- How the decoder renders a byte string. -/
def decodedBytes (data : Bytes) : Value :=
  if data.length = 1 ∧ data.headD 0 ≤ 0x7f then .byte (data.headD 0)
  else .bytes data

mutual

/-- The value the decoder returns for a given content. -/
def Item.decoded : Item → Value
  | .str data => decodedBytes data
  | .list items => .list (Item.decodedAll items)

def Item.decodedAll : List Item → List Value
  | [] => []
  | item :: items => item.decoded :: Item.decodedAll items

end

mutual

/-- Every length written into the encoding takes at most eight bytes. -/
def Value.Fits : Value → Prop
  | .nil => True
  | .str text => text.length < 2 ^ 64
  | .bytes data => data.length < 2 ^ 64
  | .byte single => (bigBytes single.toNat).length < 2 ^ 64
  | .int number => (bigBytes number).length < 2 ^ 64
  | .uint64 number => (bigBytes number.toInt64.toInt).length < 2 ^ 64
  | .bigInt number => (bigBytes number).length < 2 ^ 64
  | .list items => (encodeItems items).length < 2 ^ 64 ∧ Value.AllFit items

def Value.AllFit : List Value → Prop
  | [] => True
  | item :: items => item.Fits ∧ Value.AllFit items

end

theorem decodedBytes_injective : Function.Injective decodedBytes := by
  intro left right same
  unfold decodedBytes at same
  split at same <;> split at same
  · rename_i leftSingle rightSingle
    obtain ⟨leftByte, rfl⟩ := List.length_eq_one_iff.mp leftSingle.1
    obtain ⟨rightByte, rfl⟩ := List.length_eq_one_iff.mp rightSingle.1
    simpa using same
  · cases same
  · cases same
  · simpa using same

mutual

theorem Item.decoded_injective (left right : Item)
    (same : left.decoded = right.decoded) : left = right := by
  cases left with
  | str leftData =>
      cases right with
      | str rightData =>
          simp only [Item.decoded] at same
          rw [decodedBytes_injective same]
      | list rightItems =>
          simp only [Item.decoded, decodedBytes] at same
          split at same <;> cases same
  | list leftItems =>
      cases right with
      | str rightData =>
          simp only [Item.decoded, decodedBytes] at same
          split at same <;> cases same
      | list rightItems =>
          simp only [Item.decoded, Value.list.injEq] at same
          rw [Item.decodedAll_injective leftItems rightItems same]

theorem Item.decodedAll_injective (left right : List Item)
    (same : Item.decodedAll left = Item.decodedAll right) : left = right := by
  cases left with
  | nil =>
      cases right with
      | nil => rfl
      | cons item items => simp [Item.decodedAll] at same
  | cons leftItem leftItems =>
      cases right with
      | nil => simp [Item.decodedAll] at same
      | cons rightItem rightItems =>
          simp only [Item.decodedAll, List.cons.injEq] at same
          rw [Item.decoded_injective leftItem rightItem same.1,
            Item.decodedAll_injective leftItems rightItems same.2]

end

/-! ### Headers -/

/-- The byte or the byte string at `pos`, and where it ends. -/
def textAt (data : Bytes) (pos : Nat) : Option (Value × Nat) := do
  let char ← data[pos]?
  if char ≤ 0x7f then
    return (.byte char, pos + 1)
  else if char ≤ 0xb7 then
    let b := char.toNat - 0x80
    let ret ← slice data (pos + 1) (pos + 1 + b)
    return (.bytes ret, pos + 1 + b)
  else if char ≤ 0xbf then
    let b := char.toNat - 0xb7
    let b2 := readVarInt (← slice data (pos + 1) (pos + 1 + b))
    let ret ← slice data (pos + 1 + b) (pos + 1 + b + b2)
    return (.bytes ret, pos + 1 + b + b2)
  else none

/-- The length of the list header at `pos`, and of the payload it announces. -/
def listHeader (data : Bytes) (pos : Nat) : Option (Nat × Nat) := do
  let char ← data[pos]?
  if char ≤ 0xbf then none
  else if char ≤ 0xf7 then return (1, char.toNat - 0xc0)
  else
    let l := char.toNat - 0xf7
    return (l + 1, readVarInt (← slice data (pos + 1) (pos + 1 + l)))

/-- `_Decode` at a list, or at a byte or a byte string. -/
theorem decodeAt_succ (fuel : Nat) (data : Bytes) (pos : Nat) :
    decodeAt (fuel + 1) data pos = (listHeader data pos).elim (textAt data pos) fun header =>
      (decodeItems fuel data (pos + header.1) 0 header.2).map
        fun read => (.list read.1, read.2) := by
  rw [decodeAt, listHeader, textAt]
  cases data[pos]? with
  | none => rfl
  | some char =>
      simp only [Option.bind_eq_bind, Option.bind_some]
      by_cases text : char ≤ 0xbf
      · simp only [text, if_true, Option.elim_none]
      · have notByte : ¬ char ≤ 0x7f := fun low => text (UInt8.le_trans low (by decide))
        have notShort : ¬ char ≤ 0xb7 := fun low => text (UInt8.le_trans low (by decide))
        simp only [text, notByte, notShort, if_false, Option.map_eq_bind]
        split
        · rfl
        · cases slice data (pos + 1) (pos + 1 + (char.toNat - 0xf7)) with
          | none => rfl
          | some digits =>
              simp [Nat.add_assoc]

theorem slice_middle (before middle after : Bytes) :
    slice (before ++ (middle ++ after)) before.length
      (before.length + middle.length) = some middle := by
  simp [slice]

theorem slice_middle_at {data : Bytes} (before middle after : Bytes)
    {low high : Nat} (split : data = before ++ (middle ++ after)) (lowEq : low = before.length)
    (highEq : high = before.length + middle.length) :
    slice data low high = some middle := by
  rw [split, lowEq, highEq, slice_middle]

private theorem value_leftPadBytes (data : Bytes) (width : Nat)
    (short : data.length ≤ width) :
    BigEndian.value ((leftPadBytes data width).take width) =
      BigEndian.value data := by
  have notLong : ¬ width < data.length := by omega
  rw [leftPadBytes, if_neg notLong, List.take_of_length_le (by simp; omega),
    BigEndian.value_replicate_zero_append]

theorem readVarInt_eq_value {buff : Bytes} (short : buff.length ≤ 8) :
    readVarInt buff = BigEndian.value buff := by
  unfold readVarInt
  split
  · exact value_leftPadBytes buff 8 short
  · split
    · exact value_leftPadBytes buff 4 (by omega)
    · split
      · exact value_leftPadBytes buff 2 (by omega)
      · rw [List.take_of_length_le (by omega)]

/-- The length bytes of a string or list of at least 56 bytes. -/
theorem length_digits_range {length : Nat}
    (long : 56 ≤ length) (fits : length < 2 ^ 64) :
    1 ≤ (BigEndian.digits length).length ∧
      (BigEndian.digits length).length ≤ 8 := by
  refine ⟨BigEndian.length_digits_pos (by omega), ?_⟩
  rw [BigEndian.length_digits_le_iff]
  omega

theorem toNat_ofNat_small {number : Nat} (small : number < 256) :
    (UInt8.ofNat number).toNat = number := by
  rw [UInt8.toNat_ofNat']
  exact Nat.mod_eq_of_lt small

theorem length_encodeBytes_pos (data : Bytes) : 0 < (encodeBytes data).length := by
  unfold encodeBytes
  split
  · omega
  · split <;> simp

section Headers

variable {fuel : Nat} {char : UInt8} {before after : Bytes}

theorem char_le {bound : UInt8} (limit : Nat)
    (boundEq : bound.toNat = limit) (below : char.toNat ≤ limit) :
    char ≤ bound := by
  rw [UInt8.le_iff_toNat_le, boundEq]
  exact below

theorem char_not_le {bound : UInt8} (limit : Nat)
    (boundEq : bound.toNat = limit) (above : limit < char.toNat) :
    ¬ char ≤ bound := by
  rw [UInt8.le_iff_toNat_le, boundEq]
  omega

private theorem decodeAt_shortString {data : Bytes}
    (charEq : char.toNat = data.length + 0x80) (short : data.length < 56) :
    decodeAt (fuel + 1) (before ++ (char :: (data ++ after))) before.length =
      some (.bytes data, before.length + 1 + data.length) := by
  have notByte : ¬ char ≤ 0x7f := char_not_le 0x7f rfl (by omega)
  have shortString : char ≤ 0xb7 := char_le 0xb7 rfl (by omega)
  have body : slice (before ++ (char :: (data ++ after)))
      (before.length + 1) (before.length + 1 + data.length) = some data :=
    slice_middle_at (before ++ [char]) data after (by simp) (by simp) (by simp)
  simp [decodeAt, notByte, shortString, charEq, body]

private theorem decodeAt_longString {data digits : Bytes}
    (charEq : char.toNat = digits.length + 0xb7)
    (positive : 1 ≤ digits.length) (atMost : digits.length ≤ 8)
    (value : readVarInt digits = data.length) :
    decodeAt (fuel + 1) (before ++ (char :: (digits ++ (data ++ after))))
        before.length =
      some (.bytes data, before.length + 1 + digits.length + data.length) := by
  have notByte : ¬ char ≤ 0x7f := char_not_le 0x7f rfl (by omega)
  have notShort : ¬ char ≤ 0xb7 := char_not_le 0xb7 rfl (by omega)
  have longString : char ≤ 0xbf := char_le 0xbf rfl (by omega)
  have header : slice (before ++ (char :: (digits ++ (data ++ after))))
      (before.length + 1) (before.length + 1 + digits.length) = some digits :=
    slice_middle_at (before ++ [char]) digits (data ++ after)
      (by simp) (by simp) (by simp)
  have body : slice (before ++ (char :: (digits ++ (data ++ after))))
      (before.length + 1 + digits.length)
      (before.length + 1 + digits.length + data.length) = some data :=
    slice_middle_at (before ++ char :: digits) data after
      (by simp) (by simp; omega) (by simp; omega)
  simp [decodeAt, notByte, notShort, longString, charEq, header, value, body]

theorem listHeader_sliceHeader {length : Nat} (fits : length < 2 ^ 64) (before after : Bytes) :
    listHeader (before ++ (sliceHeader length ++ after)) before.length =
      some ((sliceHeader length).length, length) := by
  unfold sliceHeader
  split
  · have charEq : (UInt8.ofNat (length + 0xc0)).toNat = length + 0xc0 :=
      toNat_ofNat_small (by omega)
    generalize UInt8.ofNat (length + 0xc0) = char at charEq ⊢
    have notText : ¬ char ≤ 0xbf := char_not_le 0xbf rfl (by omega)
    have shortList : char ≤ 0xf7 := char_le 0xf7 rfl (by omega)
    simp [listHeader, notText, shortList, charEq]
  · obtain ⟨positive, atMost⟩ := length_digits_range (by omega) fits
    have value : readVarInt (BigEndian.digits length) = length := by
      rw [readVarInt_eq_value atMost, BigEndian.value_digits]
    have charEq : (UInt8.ofNat ((BigEndian.digits length).length + 0xf7)).toNat =
        (BigEndian.digits length).length + 0xf7 := toNat_ofNat_small (by omega)
    dsimp only
    generalize UInt8.ofNat ((BigEndian.digits length).length + 0xf7) = char at charEq ⊢
    generalize BigEndian.digits length = digits at *
    have notText : ¬ char ≤ 0xbf := char_not_le 0xbf rfl (by omega)
    have longList : ¬ char ≤ 0xf7 := char_not_le 0xf7 rfl (by omega)
    have header : slice (before ++ char :: (digits ++ after)) (before.length + 1)
        (before.length + 1 + digits.length) = some digits :=
      slice_middle_at (before ++ [char]) digits after (by simp) (by simp) (by simp)
    simp [listHeader, notText, longList, charEq, header, value]

end Headers

theorem decodeAt_encodeBytes {fuel : Nat} (data before after : Bytes)
    (fits : data.length < 2 ^ 64) :
    decodeAt (fuel + 1) (before ++ (encodeBytes data ++ after)) before.length =
      some (decodedBytes data, before.length + (encodeBytes data).length) := by
  unfold encodeBytes decodedBytes
  split
  · rename_i single
    obtain ⟨byte, rfl⟩ := List.length_eq_one_iff.mp single.1
    have small : byte ≤ 0x7f := single.2
    simp [decodeAt, small]
  · split
    · rename_i notSingle short
      have charEq : (UInt8.ofNat (data.length + 0x80)).toNat = data.length + 0x80 :=
        toNat_ofNat_small (by omega)
      rw [List.cons_append, decodeAt_shortString charEq short, List.length_cons]
      congr 2
      omega
    · rename_i notSingle long
      obtain ⟨positive, atMost⟩ := length_digits_range (by omega) fits
      have value : readVarInt (BigEndian.digits data.length) = data.length := by
        rw [readVarInt_eq_value atMost, BigEndian.value_digits]
      have charEq : (UInt8.ofNat
          ((BigEndian.digits data.length).length + 0xb7)).toNat =
            (BigEndian.digits data.length).length + 0xb7 :=
        toNat_ofNat_small (by omega)
      simp only [List.cons_append, List.append_assoc]
      rw [decodeAt_longString charEq positive atMost value, List.length_cons,
        List.length_append]
      congr 2
      omega

theorem length_sliceHeader_pos (length : Nat) : 0 < (sliceHeader length).length := by
  unfold sliceHeader
  split <;> simp

theorem length_encode_pos (value : Value) : 0 < (encode value).length := by
  cases value with
  | list items =>
      simp only [encode, List.length_append]
      have header := length_sliceHeader_pos (encodeItems items).length
      omega
  | _ => simp [encode, length_encodeBytes_pos]

private theorem decodeAt_list {fuel : Nat} {items : List Value}
    (payload before after : Bytes) (fits : payload.length < 2 ^ 64)
    (read : ∀ front, decodeItems fuel (front ++ (payload ++ after)) front.length 0
      payload.length = some (items, front.length + payload.length)) :
    decodeAt (fuel + 1)
        (before ++ ((sliceHeader payload.length ++ payload) ++ after)) before.length =
      some (.list items,
        before.length + (sliceHeader payload.length ++ payload).length) := by
  have inner := read (before ++ sliceHeader payload.length)
  rw [List.append_assoc, List.length_append] at inner
  rw [List.append_assoc, decodeAt_succ, listHeader_sliceHeader fits, Option.elim_some, inner,
    List.length_append, Nat.add_assoc]
  rfl

mutual

/-- Decoding at the start of an encoding returns the content of the encoded
value and stops right behind it, whatever stands before and after. -/
theorem decodeAt_encode (value : Value) (fits : value.Fits) (fuel : Nat)
    (enough : 2 * (encode value).length ≤ fuel) (before after : Bytes) :
    decodeAt fuel (before ++ (encode value ++ after)) before.length =
      some (value.content.decoded, before.length + (encode value).length) := by
  have positive := length_encode_pos value
  obtain ⟨fuel, rfl⟩ : ∃ smaller, fuel = smaller + 1 := ⟨fuel - 1, by omega⟩
  cases value with
  | nil =>
      have empty : ∀ front : Bytes, decodeItems fuel (front ++ ([] ++ after))
          front.length 0 0 = some ([], front.length + 0) := by
        intro front
        obtain ⟨fuel, rfl⟩ : ∃ smaller, fuel = smaller + 1 :=
          ⟨fuel - 1, by simp [encode] at enough; omega⟩
        simp [decodeItems]
      exact decodeAt_list [] before after (by simp) empty
  | list items =>
      simp only [encode, List.length_append] at enough ⊢
      have header := length_sliceHeader_pos (encodeItems items).length
      simp only [Value.Fits] at fits
      have read : ∀ front : Bytes,
          decodeItems fuel (front ++ (encodeItems items ++ after)) front.length 0
              (encodeItems items).length =
            some (Item.decodedAll (Value.contents items),
              front.length + (encodeItems items).length) := by
        intro front
        simpa using decodeItems_encodeItems items fits.2 fuel (by omega) front after 0
      simpa [Value.content, Item.decoded] using
        decodeAt_list (encodeItems items) before after fits.1 read
  | _ =>
      simp only [encode, Value.content, Item.decoded, Value.Fits] at fits ⊢
      exact decodeAt_encodeBytes _ before after fits

/-- The element loop started `consumed` bytes into a payload. -/
theorem decodeItems_encodeItems (items : List Value) (fit : Value.AllFit items)
    (fuel : Nat) (enough : 2 * (encodeItems items).length + 1 ≤ fuel)
    (before after : Bytes) (consumed : Nat) :
    decodeItems fuel (before ++ (encodeItems items ++ after)) before.length consumed
        (consumed + (encodeItems items).length) =
      some (Item.decodedAll (Value.contents items),
        before.length + (encodeItems items).length) := by
  obtain ⟨fuel, rfl⟩ : ∃ smaller, fuel = smaller + 1 := ⟨fuel - 1, by omega⟩
  cases items with
  | nil => simp [decodeItems, encodeItems, Value.contents, Item.decodedAll]
  | cons item items =>
      simp only [Value.AllFit] at fit
      simp only [encodeItems, List.length_append] at enough ⊢
      have positive := length_encode_pos item
      have first := decodeAt_encode item fit.1 fuel (by omega) before
        (encodeItems items ++ after)
      have rest := decodeItems_encodeItems items fit.2 fuel (by omega)
        (before ++ encode item) after (consumed + (encode item).length)
      simp only [List.append_assoc, List.length_append] at rest
      have more : consumed <
          consumed + ((encode item).length + (encodeItems items).length) := by omega
      have advance : before.length + (encode item).length - before.length =
          (encode item).length := by omega
      simp only [decodeItems, more, if_true, List.append_assoc, first,
        Option.bind_eq_bind, Option.bind_some, advance]
      rw [← Nat.add_assoc, rest]
      simp [Value.contents, Item.decodedAll, Nat.add_assoc]

end

theorem decode_encode (value : Value) (fits : value.Fits) (after : Bytes) :
    decode (encode value ++ after) 0 =
      some (value.content.decoded, (encode value).length) := by
  have read := decodeAt_encode value fits
    (2 * (encode value ++ after).length + 2) (by simp; omega) [] after
  simpa [decode] using read

theorem newValueFromBytes_encode (value : Value) (fits : value.Fits) :
    newValueFromBytes (encode value) = some value.content.decoded := by
  have positive := length_encode_pos value
  have read := decode_encode value fits []
  rw [List.append_nil] at read
  simp [newValueFromBytes, Nat.ne_of_gt positive, read]

variable {left right : Value}

/-- Encodings are self-delimiting: two that start the same byte string are
encodings of the same content. -/
theorem content_eq_of_encode_append_eq (leftFits : left.Fits) (rightFits : right.Fits)
    {leftRest rightRest : Bytes} (same : encode left ++ leftRest = encode right ++ rightRest) :
    left.content = right.content := by
  have leftRead := decode_encode left leftFits leftRest
  have rightRead := decode_encode right rightFits rightRest
  rw [same, rightRead] at leftRead
  simp only [Option.some.injEq, Prod.mk.injEq] at leftRead
  exact (Item.decoded_injective _ _ leftRead.1).symm

theorem content_eq_of_encode_eq (leftFits : left.Fits) (rightFits : right.Fits)
    (same : encode left = encode right) : left.content = right.content :=
  content_eq_of_encode_append_eq leftFits rightFits
    (congrArg (fun bytes => bytes ++ []) same)

mutual

theorem encode_eq_encode_content (value : Value) :
    encode value = value.content.encode := by
  cases value with
  | nil => rfl
  | list items =>
      simp only [encode, Value.content, Item.encode]
      rw [encodeItems_eq_encodeAll_contents items]
  | _ => rfl

theorem encodeItems_eq_encodeAll_contents (items : List Value) :
    encodeItems items = Item.encodeAll (Value.contents items) := by
  cases items with
  | nil => rfl
  | cons item items =>
      simp only [encodeItems, Value.contents, Item.encodeAll]
      rw [encode_eq_encode_content item, encodeItems_eq_encodeAll_contents items]

end

theorem encode_congr (same : left.content = right.content) : encode left = encode right := by
  rw [encode_eq_encode_content, encode_eq_encode_content, same]

end Thelonious
