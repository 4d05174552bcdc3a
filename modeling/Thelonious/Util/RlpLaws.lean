import Thelonious.Util.Plain

/-!
# Laws of the encoding on byte strings and lists

For values made of byte strings and lists, `Decode` returns the value up to the
type of one-byte strings, whatever follows the encoding.  Encoding the decoded
value again gives the same bytes exactly when no string is the single byte zero:
that one comes back as the number zero, which is written as the empty string.
-/

namespace Thelonious

namespace Value

mutual

/-- The value is made of byte strings and lists. -/
def Built : Value → Prop
  | .bytes _ => True
  | .list items => AllBuilt items
  | _ => False

def AllBuilt : List Value → Prop
  | [] => True
  | item :: items => item.Built ∧ AllBuilt items

end

mutual

/-- Each one-byte string up to `0x7f` is replaced by that byte. -/
def norm : Value → Value
  | .bytes data =>
      if data.length = 1 ∧ data.headD 0 ≤ 0x7f then .byte (data.headD 0) else .bytes data
  | .list items => .list (normAll items)
  | value => value

def normAll : List Value → List Value
  | [] => []
  | item :: items => item.norm :: normAll items

end

mutual

/-- No string of the value is the single byte zero. -/
def ZeroFree : Value → Prop
  | .bytes data => data ≠ [0]
  | .list items => AllZeroFree items
  | _ => True

def AllZeroFree : List Value → Prop
  | [] => True
  | item :: items => item.ZeroFree ∧ AllZeroFree items

end

mutual

theorem decoded_content (x : Value) (built : x.Built) : x.content.decoded = x.norm := by
  cases x with
  | bytes data => rfl
  | list items =>
      simp only [content, Item.decoded, norm]
      rw [decodedAll_contents items built]
  | _ => exact built.elim

theorem decodedAll_contents (items : List Value) (built : AllBuilt items) :
    Item.decodedAll (contents items) = normAll items := by
  cases items with
  | nil => rfl
  | cons item items =>
      simp only [contents, Item.decodedAll, normAll]
      rw [decoded_content item built.1, decodedAll_contents items built.2]

end

mutual

theorem clean_content_iff (x : Value) (built : x.Built) : x.content.Clean ↔ x.ZeroFree := by
  cases x with
  | bytes data => rfl
  | list items => exact allClean_contents_iff items built
  | _ => exact built.elim

theorem allClean_contents_iff (items : List Value) (built : AllBuilt items) :
    Item.AllClean (contents items) ↔ AllZeroFree items := by
  cases items with
  | nil => exact Iff.rfl
  | cons item items =>
      exact and_congr (clean_content_iff item built.1) (allClean_contents_iff items built.2)

end

end Value

/-- `Decode` undoes `Encode` in front of any bytes; so encodings determine the
normal form of a value, and none is a proper beginning of another. -/
theorem decode_encode_append (x : Value) (built : x.Built) (fits : x.Fits) (rest : Bytes) :
    decode (encode x ++ rest) 0 = some (x.norm, (encode x).length) ∧
      ∀ y : Value, y.Built → y.Fits →
        (encode x = encode y → x.norm = y.norm) ∧
        (encode x <+: encode y → encode x = encode y) := by
  constructor
  · rw [decode_encode x fits rest, x.decoded_content built]
  · intro y otherBuilt otherFits
    constructor
    · intro same
      rw [← x.decoded_content built, ← y.decoded_content otherBuilt,
        content_eq_of_encode_eq fits otherFits same]
    · rintro ⟨tail, same⟩
      have sameBytes : encode x ++ tail = encode y ++ [] := by
        rw [same, List.append_nil]
      exact encode_congr (content_eq_of_encode_append_eq fits otherFits sameBytes)

/-- `[[0x01], [0x80], [], [[], 56 bytes]]` -/
def nestedSample : Value :=
  .list [.bytes [1], .bytes [0x80], .list [], .list [.bytes [], .bytes (List.replicate 56 7)]]

theorem decode_encode_nestedSample :
    decode (encode nestedSample ++ [0xff]) 0 =
      some (.list [.byte 1, .bytes [0x80], .list [],
        .list [.bytes [], .bytes (List.replicate 56 7)]], 67) := by
  have built : nestedSample.Built := by
    simp [nestedSample, Value.Built, Value.AllBuilt]
  have fits : nestedSample.Fits := Value.fits_of_length_encode _ (by decide +kernel)
  have lengthEq : (encode nestedSample).length = 67 := by decide +kernel
  rw [(decode_encode_append nestedSample built fits [0xff]).1, lengthEq]
  rfl

mutual

theorem Item.clean_of_content_decoded (item : Item) (same : item.decoded.content = item) :
    item.Clean := by
  cases item with
  | str data =>
      rintro rfl
      exact absurd same (by simp [Item.decoded, decodedBytes, Value.content, bigBytes])
  | list items =>
      simp only [Item.decoded, Value.content, Item.list.injEq] at same
      exact Item.allClean_of_contents_decodedAll items same

theorem Item.allClean_of_contents_decodedAll (items : List Item)
    (same : Value.contents (Item.decodedAll items) = items) : Item.AllClean items := by
  cases items with
  | nil => trivial
  | cons item items =>
      simp only [Item.decodedAll, Value.contents, List.cons.injEq] at same
      exact ⟨Item.clean_of_content_decoded item same.1,
        Item.allClean_of_contents_decodedAll items same.2⟩

end

/-- Encoding what was decoded gives the same bytes just for values without the string
that is the single byte zero. -/
theorem reencode_eq_iff_zeroFree (x : Value) (built : x.Built)
    (fits : (encode x).length < 2 ^ 64) :
    (decode (encode x) 0).map (fun read => encode read.1) = some (encode x) ↔ x.ZeroFree := by
  have read := decode_encode x (x.fits_of_length_encode fits) []
  rw [List.append_nil] at read
  rw [read, ← x.clean_content_iff built, Option.map_some, Option.some.injEq]
  constructor
  · intro same
    have decodedFits := Value.fits_of_length_encode x.content.decoded (same ▸ fits)
    exact Item.clean_of_content_decoded _
      (content_eq_of_encode_eq decodedFits (x.fits_of_length_encode fits) same)
  · intro clean
    rw [(Item.represents_decoded _ clean).encode_eq, encode_eq_encode_content]

theorem reencode_nestedSample :
    (decode (encode nestedSample) 0).map (fun read => encode read.1) =
      some (encode nestedSample) := by
  have built : nestedSample.Built := by
    simp [nestedSample, Value.Built, Value.AllBuilt]
  have zeroFree : nestedSample.ZeroFree := by
    simp [nestedSample, Value.ZeroFree, Value.AllZeroFree]
  exact (reencode_eq_iff_zeroFree nestedSample built (by decide +kernel)).mpr zeroFree

/-- The single byte zero comes back as the number zero, and that is the empty string. -/
theorem reencode_zero_ne :
    (Value.bytes [0]).Built ∧ encode (.bytes [0]) = [0] ∧
      (decode (encode (.bytes [0])) 0).map (fun read => encode read.1) = some [0x80] ∧
      (decode (encode (.bytes [0])) 0).map (fun read => encode read.1) ≠
        some (encode (.bytes [0])) :=
  ⟨trivial, by decide +kernel, by decide +kernel, by decide +kernel⟩

end Thelonious
