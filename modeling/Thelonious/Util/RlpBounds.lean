import Thelonious.Util.RlpRoundTrip

/-!
# The decoder stays inside its input

`Decode` reads nothing behind the end of its input, and a list it returns has all the bytes its
header announces.  So an encoded list that has been cut short is not decoded.
-/

namespace Thelonious

variable {data : Bytes} {pos next fuel : Nat} {value : Value} {items : List Value}

theorem slice_bound {part : Bytes} {low high : Nat} (sliced : slice data low high = some part) :
    low ≤ high ∧ high ≤ data.length := by
  unfold slice at sliced
  split at sliced
  case isTrue bound => exact bound
  case isFalse => exact absurd sliced (by simp)

/-- What is read there, inside the data. -/
theorem textAt_spec (read : textAt data pos = some (value, next)) :
    ((∃ single, value = .byte single) ∨ ∃ ret, value = .bytes ret) ∧
      pos < next ∧ next ≤ data.length := by
  obtain ⟨char, isChar, read⟩ := Option.bind_eq_some_iff.mp read
  have inside : pos < data.length := (List.getElem?_eq_some_iff.mp isChar).1
  split at read
  · cases read
    exact ⟨.inl ⟨char, rfl⟩, by omega⟩
  split at read
  · obtain ⟨ret, sliced, returned⟩ := Option.bind_eq_some_iff.mp read
    cases returned
    have bound := slice_bound sliced
    exact ⟨.inr ⟨ret, rfl⟩, by omega⟩
  split at read
  · obtain ⟨digits, -, read⟩ := Option.bind_eq_some_iff.mp read
    obtain ⟨ret, sliced, returned⟩ := Option.bind_eq_some_iff.mp read
    cases returned
    have bound := slice_bound sliced
    exact ⟨.inr ⟨ret, rfl⟩, by omega⟩
  · cases read

theorem listHeader_bound {h b : Nat} (header : listHeader data pos = some (h, b)) :
    0 < h ∧ pos + h ≤ data.length := by
  obtain ⟨char, isChar, header⟩ := Option.bind_eq_some_iff.mp header
  have inside : pos < data.length := (List.getElem?_eq_some_iff.mp isChar).1
  split at header
  · cases header
  split at header
  · cases header
    omega
  · obtain ⟨digits, sliced, header⟩ := Option.bind_eq_some_iff.mp header
    cases header
    have bound := slice_bound sliced
    omega

/-- What `_Decode` has read: a byte or a byte string, or the elements of a list. -/
theorem decodeAt_cases (read : decodeAt fuel data pos = some (value, next)) :
    (listHeader data pos = none ∧ textAt data pos = some (value, next)) ∨
      ∃ less h b items, fuel = less + 1 ∧ listHeader data pos = some (h, b) ∧
        decodeItems less data (pos + h) 0 b = some (items, next) ∧ value = .list items := by
  cases fuel with
  | zero => cases read
  | succ fuel =>
      rw [decodeAt_succ] at read
      cases header : listHeader data pos with
      | none => exact .inl ⟨rfl, by rwa [header] at read⟩
      | some lengths =>
          rw [header] at read
          obtain ⟨⟨items, last⟩, listed, returned⟩ := Option.map_eq_some_iff.mp read
          cases returned
          exact .inr ⟨fuel, lengths.1, lengths.2, items, rfl, rfl, listed, rfl⟩

/-- What the decoder has read lies in the input. -/
def ReadsWithin (fuel : Nat) (data : Bytes) : Prop :=
  ∀ pos value next, decodeAt fuel data pos = some (value, next) → pos < next ∧ next ≤ data.length

/-- The elements of a list lie in the input, and take the bytes that are announced. -/
theorem decodeItems_bound (within : ∀ less < fuel, ReadsWithin less data) {i b last : Nat}
    (inside : pos ≤ data.length) (read : decodeItems fuel data pos i b = some (items, last)) :
    pos + items.length ≤ last ∧ last ≤ data.length ∧ b ≤ i + (last - pos) := by
  induction fuel generalizing pos i items with
  | zero => exact absurd read (by simp [decodeItems])
  | succ fuel induction =>
      rw [decodeItems] at read
      split at read
      case isTrue =>
        obtain ⟨⟨item, next⟩, first, read⟩ := Option.bind_eq_some_iff.mp read
        obtain ⟨⟨rest, final⟩, later, returned⟩ := Option.bind_eq_some_iff.mp read
        cases returned
        have firstBound := within fuel (Nat.lt_succ_self fuel) pos item next first
        have laterBound := induction (fun less below => within less (Nat.lt_succ_of_lt below))
          firstBound.2 later
        rw [List.length_cons]
        omega
      case isFalse =>
        cases read
        rw [List.length_nil]
        omega

theorem readsWithin (fuel : Nat) (data : Bytes) : ReadsWithin fuel data := by
  induction fuel using Nat.strong_induction_on with
  | _ fuel induction =>
      intro pos value next read
      rcases decodeAt_cases read with ⟨-, text⟩ | ⟨less, h, b, items, rfl, header, listed, rfl⟩
      · exact (textAt_spec text).2
      · have headerBound := listHeader_bound header
        have bound := decodeItems_bound
          (fun smaller below => induction smaller (Nat.lt_succ_of_lt below)) headerBound.2 listed
        omega

theorem length_of_decode_list (read : decode data 0 = some (.list items, next)) :
    items.length ≤ data.length := by
  rcases decodeAt_cases read with ⟨-, text⟩ | ⟨less, h, b, found, -, header, listed, isList⟩
  · obtain ⟨⟨single, isByte⟩ | ⟨ret, isBytes⟩, -⟩ := textAt_spec text
    · cases isByte
    · cases isBytes
  · cases isList
    have bound := decodeItems_bound (fun smaller _ => readsWithin smaller data)
      (listHeader_bound header).2 listed
    omega

theorem slice_append {part missing : Bytes} {low high : Nat}
    (sliced : slice data low high = some part) : slice (data ++ missing) low high = some part := by
  obtain ⟨order, inside⟩ := slice_bound sliced
  rw [slice, if_pos ⟨order, inside⟩] at sliced
  rw [slice, if_pos ⟨order, by rw [List.length_append]; omega⟩,
    List.drop_append_of_le_length (by omega),
    List.take_append_of_le_length (by rw [List.length_drop]; omega), sliced]

/-- A header that has been read is there, whatever comes behind the data. -/
theorem listHeader_append {h b : Nat} (header : listHeader data pos = some (h, b))
    (missing : Bytes) : listHeader (data ++ missing) pos = some (h, b) := by
  obtain ⟨char, isChar, header⟩ := Option.bind_eq_some_iff.mp header
  have inside : pos < data.length := (List.getElem?_eq_some_iff.mp isChar).1
  rw [listHeader, List.getElem?_append_left inside, isChar, Option.bind_eq_bind, Option.bind_some]
  split at header
  · cases header
  · rename_i list
    rw [if_neg list]
    split at header
    · rename_i short
      rw [if_pos short]
      exact header
    · rename_i long
      obtain ⟨digits, sliced, header⟩ := Option.bind_eq_some_iff.mp header
      rw [if_neg long]
      dsimp only
      rw [slice_append sliced]
      exact header

/-- An encoded list of which something is missing at the end is not decoded. -/
theorem newValueFromBytes_cut {missing : Bytes} (fits : (encode (.list items)).length < 2 ^ 64)
    (cut : data ++ missing = encode (.list items)) (nonempty : data ≠ []) (short : missing ≠ []) :
    newValueFromBytes data = none := by
  have lengths := congrArg List.length cut
  have missingPos := List.length_pos_of_ne_nil short
  have dataPos := List.length_pos_of_ne_nil nonempty
  rw [newValueFromBytes, if_pos (Nat.ne_of_gt dataPos), Option.map_eq_none_iff,
    Option.eq_none_iff_forall_ne_some]
  rintro ⟨value, next⟩ read
  simp only [encode, List.length_append] at lengths cut fits
  have whole := listHeader_sliceHeader (show (encodeItems items).length < 2 ^ 64 by omega) []
    (encodeItems items)
  rw [List.nil_append, List.length_nil, ← cut] at whole
  rcases decodeAt_cases read with ⟨notList, text⟩ | ⟨less, h, b, found, -, header, listed, -⟩
  · obtain ⟨char, isChar, -⟩ := Option.bind_eq_some_iff.mp text
    have same : (data ++ missing)[0]? = some char :=
      (List.getElem?_append_left dataPos).trans isChar
    by_cases low : char ≤ 0xbf
    · simp [listHeader, same, low] at whole
    · have notByte : ¬ char ≤ 0x7f := fun byte => low (UInt8.le_trans byte (by decide))
      have notShort : ¬ char ≤ 0xb7 := fun short => low (UInt8.le_trans short (by decide))
      simp [textAt, isChar, low, notByte, notShort] at text
  · obtain ⟨rfl, rfl⟩ :=
      Prod.mk.inj (Option.some.inj ((listHeader_append header missing).symm.trans whole))
    have bound := decodeItems_bound (fun smaller _ => readsWithin smaller data)
      (listHeader_bound header).2 listed
    omega

end Thelonious
