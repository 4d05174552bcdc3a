import Thelonious.Util.Value
import Thelonious.Lib.Radix

/-!
# Compact encoding of trie paths

Trie keys are slices of nibbles; the number 16 terminates a whole key.  A path
is stored in a node as a byte string whose first nibble tells whether the path
is terminated and whether its length is odd.
-/

namespace Thelonious

/-- An element of a key: a nibble, or the terminator 16. -/
abbrev Nibble := Fin 17

instance neZero_seventeen : NeZero 17 := ⟨by decide⟩

/-- The two nibbles of a byte, as its hexadecimal digits spell them. -/
def nibblesOf (byte : UInt8) : List Nibble :=
  [⟨byte.toNat / 16, by have := byte.toNat_lt; omega⟩,
    ⟨byte.toNat % 16, by omega⟩]

/-- `CompactHexDecode` -/
def compactHexDecode (str : Bytes) : List Nibble :=
  str.flatMap nibblesOf ++ [16]

/-- The loop writing `byte(16*hexSlice[i] + hexSlice[i+1])`. -/
def packNibbles : List Nibble → Bytes
  | high :: low :: rest => UInt8.ofNat (16 * high.val + low.val) :: packNibbles rest
  | _ => []

/-- The flag nibbles `CompactEncode` puts in front of a path. -/
def compactFlags (terminated : Bool) (length : Nat) : List Nibble :=
  match terminated, length % 2 == 1 with
  | false, false => [0, 0]
  | false, true => [1]
  | true, false => [2, 0]
  | true, true => [3]

/-- `CompactEncode`; the source indexes the last element, which panics on an
empty slice. -/
def compactEncode (hexSlice : List Nibble) : Option Bytes :=
  match hexSlice.getLast? with
  | none => none
  | some last =>
      let terminated := last == 16
      let body := if terminated then hexSlice.dropLast else hexSlice
      some (packNibbles (compactFlags terminated body.length ++ body))

/-- `CompactDecode`; it panics on the empty string. -/
def compactDecode (str : Bytes) : Option (List Nibble) :=
  match (compactHexDecode str).dropLast with
  | [] => none
  | flag :: rest =>
      let base := if 2 ≤ flag.val then flag :: rest ++ [16] else flag :: rest
      some (if flag.val % 2 = 1 then base.drop 1 else base.drop 2)

/-- `DecodeCompact` -/
def decodeCompact (key : List Nibble) : Bytes :=
  packNibbles (key.filter (· < 16))

/-- `MatchingNibbleLength` -/
def matchingNibbleLength : List Nibble → List Nibble → Nat
  | left :: lefts, right :: rights =>
      if left = right then matchingNibbleLength lefts rights + 1 else 0
  | _, _ => 0

/-- A path as it occurs in a node: not empty, terminated at most at its end. -/
def PathOk (path : List Nibble) : Prop :=
  path ≠ [] ∧ (16 : Nibble) ∉ path.dropLast

/-! ### Whole keys -/

theorem lt_of_ne_sixteen {nibble : Nibble} (different : nibble ≠ 16) :
    nibble < 16 := by
  have bound := nibble.isLt
  have valueNe : nibble.val ≠ 16 := fun same => different (Fin.ext same)
  rw [Fin.lt_def]
  change nibble.val < 16
  omega

theorem nibblesOf_ne_sixteen {byte : UInt8} {nibble : Nibble}
    (member : nibble ∈ nibblesOf byte) : nibble ≠ 16 := by
  have bound := byte.toNat_lt
  simp only [nibblesOf, List.mem_cons, List.not_mem_nil, or_false] at member
  rcases member with rfl | rfl
  · intro same
    have := congrArg Fin.val same
    simp at this
    omega
  · intro same
    have := congrArg Fin.val same
    simp at this
    omega

theorem terminated_compactHexDecode (str : Bytes) :
    Radix.Terminated 16 (compactHexDecode str) := by
  apply Radix.Terminated.append
  · intro member
    obtain ⟨byte, _, inside⟩ := List.mem_flatMap.mp member
    exact nibblesOf_ne_sixteen inside rfl
  · exact Radix.terminated_singleton 16

theorem length_compactHexDecode (str : Bytes) :
    (compactHexDecode str).length = 2 * str.length + 1 := by
  induction str with
  | nil => rfl
  | cons byte str induction =>
      simp only [compactHexDecode, List.flatMap_cons, List.append_assoc,
        List.length_append, List.length_cons] at induction ⊢
      simp only [nibblesOf, List.length_cons, List.length_nil] at induction ⊢
      omega

private theorem pack_nibblesOf (byte : UInt8) (rest : List Nibble) :
    packNibbles (nibblesOf byte ++ rest) = byte :: packNibbles rest := by
  simp only [nibblesOf, List.cons_append, List.nil_append, packNibbles, List.cons.injEq,
    and_true]
  rw [Nat.div_add_mod, UInt8.ofNat_toNat]

theorem packNibbles_flatMap (str : Bytes) (rest : List Nibble) :
    packNibbles (str.flatMap nibblesOf ++ rest) = str ++ packNibbles rest := by
  induction str with
  | nil => rfl
  | cons byte str induction =>
      rw [List.flatMap_cons, List.append_assoc, pack_nibblesOf, induction,
        List.cons_append]

theorem decodeCompact_compactHexDecode (str : Bytes) :
    decodeCompact (compactHexDecode str) = str := by
  have keep : (str.flatMap nibblesOf).filter (· < 16) = str.flatMap nibblesOf := by
    rw [List.filter_eq_self]
    intro nibble member
    obtain ⟨byte, _, inside⟩ := List.mem_flatMap.mp member
    exact decide_eq_true (lt_of_ne_sixteen (nibblesOf_ne_sixteen inside))
  have packed := packNibbles_flatMap str []
  simp only [List.append_nil, packNibbles] at packed
  simp [decodeCompact, compactHexDecode, keep, packed]

theorem compactHexDecode_injective : Function.Injective compactHexDecode := by
  intro left right same
  rw [← decodeCompact_compactHexDecode left, same, decodeCompact_compactHexDecode]

/-! ### Paths -/

private theorem nibblesOf_pack {high low : Nibble} (highNe : high ≠ 16) (lowNe : low ≠ 16) :
    nibblesOf (UInt8.ofNat (16 * high.val + low.val)) = [high, low] := by
  have highLt : high.val < 16 := lt_of_ne_sixteen highNe
  have lowLt : low.val < 16 := lt_of_ne_sixteen lowNe
  have byteEq : (UInt8.ofNat (16 * high.val + low.val)).toNat = 16 * high.val + low.val := by
    rw [UInt8.toNat_ofNat']
    exact Nat.mod_eq_of_lt (by omega)
  simp only [nibblesOf, List.cons.injEq, and_true]
  constructor
  · apply Fin.ext
    simp only [byteEq]
    omega
  · apply Fin.ext
    simp only [byteEq]
    omega

theorem flatMap_packNibbles : (nibbles : List Nibble) → nibbles.length % 2 = 0 →
    (16 : Nibble) ∉ nibbles → (packNibbles nibbles).flatMap nibblesOf = nibbles
  | [], _, _ => rfl
  | [_], odd, _ => by simp at odd
  | high :: low :: rest, even, interior => by
      simp only [List.mem_cons, not_or] at interior
      simp only [List.length_cons] at even
      rw [packNibbles, List.flatMap_cons,
        nibblesOf_pack (Ne.symm interior.1) (Ne.symm interior.2.1),
        flatMap_packNibbles rest (by omega) interior.2.2]
      rfl

private theorem compactFlags_interior (terminated : Bool) (length : Nat) :
    (16 : Nibble) ∉ compactFlags terminated length := by
  unfold compactFlags
  split <;> decide

private theorem length_compactFlags_add (terminated : Bool) (length : Nat) :
    ((compactFlags terminated length).length + length) % 2 = 0 := by
  have parity := Nat.mod_two_eq_zero_or_one length
  cases terminated <;> rcases parity with even | odd <;>
    simp [compactFlags, *] <;> omega

/-- What `CompactDecode` makes of the flags and the body of a path. -/
private theorem compactDecode_pack (terminated : Bool) {body : List Nibble}
    (interior : (16 : Nibble) ∉ body) :
    compactDecode (packNibbles (compactFlags terminated body.length ++ body)) =
      some (if terminated then body ++ [16] else body) := by
  have unpacked := flatMap_packNibbles (compactFlags terminated body.length ++ body)
    (by rw [List.length_append]; exact length_compactFlags_add terminated body.length)
    (by
      rw [List.mem_append, not_or]
      exact ⟨compactFlags_interior terminated body.length, interior⟩)
  rw [compactDecode, compactHexDecode, unpacked, List.dropLast_concat]
  have parity := Nat.mod_two_eq_zero_or_one body.length
  cases terminated <;> rcases parity with even | odd <;>
    simp [compactFlags, *]

variable {path : List Nibble}

theorem compactDecode_compactEncode (ok : PathOk path) :
    (compactEncode path).bind compactDecode = some path := by
  obtain ⟨nonempty, interior⟩ := ok
  obtain ⟨body, last, rfl⟩ : ∃ body last, path = body ++ [last] :=
    ⟨path.dropLast, path.getLast nonempty, (List.dropLast_append_getLast nonempty).symm⟩
  rw [List.dropLast_concat] at interior
  simp only [compactEncode, List.getLast?_append, List.getLast?_singleton,
    Option.some_or, Option.bind_some, List.dropLast_concat]
  by_cases isEnd : last = 16
  · subst isEnd
    simpa using compactDecode_pack true interior
  · have allInterior : (16 : Nibble) ∉ body ++ [last] := by
      simp only [List.mem_append, List.mem_singleton, not_or]
      exact ⟨interior, Ne.symm isEnd⟩
    have notEnd : (last == 16) = false := beq_eq_false_iff_ne.mpr isEnd
    simpa [notEnd] using compactDecode_pack false allInterior

/-- The stored form of a path; every path of a node has one. -/
def compactPath (path : List Nibble) : Bytes :=
  (compactEncode path).getD []

theorem compactEncode_eq (nonempty : path ≠ []) : compactEncode path = some (compactPath path) := by
  obtain ⟨body, last, rfl⟩ : ∃ body last, path = body ++ [last] :=
    ⟨path.dropLast, path.getLast nonempty, (List.dropLast_append_getLast nonempty).symm⟩
  simp [compactPath, compactEncode]

theorem compactDecode_compactPath (ok : PathOk path) :
    compactDecode (compactPath path) = some path := by
  have decoded := compactDecode_compactEncode ok
  rwa [compactEncode_eq ok.1, Option.bind_some] at decoded

theorem length_packNibbles_le : (nibbles : List Nibble) →
    (packNibbles nibbles).length ≤ nibbles.length
  | [] => by simp [packNibbles]
  | [_] => by simp [packNibbles]
  | _ :: _ :: rest => by
      have shorter := length_packNibbles_le rest
      simp only [packNibbles, List.length_cons]
      omega

theorem length_compactPath_le (path : List Nibble) :
    (compactPath path).length ≤ path.length + 2 := by
  unfold compactPath compactEncode
  split
  · simp
  · rename_i last lastEq
    refine (length_packNibbles_le _).trans ?_
    rw [List.length_append]
    have flags : (compactFlags (last == 16)
        (if last == 16 then path.dropLast else path).length).length ≤ 2 := by
      unfold compactFlags
      split <;> simp
    have body : (if last == 16 then path.dropLast else path).length ≤ path.length := by
      split
      · simp
      · simp
    omega

theorem pathOk_of_terminated (terminated : Radix.Terminated 16 path) : PathOk path := by
  refine ⟨terminated.ne_nil, ?_⟩
  have split := List.dropLast_append_getLast terminated.ne_nil
  rw [← split] at terminated
  exact terminated.not_mem_of_append (by simp)

theorem pathOk_of_interior (nonempty : path ≠ []) (interior : (16 : Nibble) ∉ path) : PathOk path :=
  ⟨nonempty, fun member => interior (List.dropLast_subset path member)⟩

/-- The compact encoding is a bijection onto its image: what is encoded is decoded again, so no
two paths share a form, and the nibbles of a string spell the string. -/
theorem compact_encoding_bijective :
    (∀ path, PathOk path →
      ∃ str, compactEncode path = some str ∧ compactDecode str = some path) ∧
    (∀ left right, PathOk left → PathOk right →
      compactEncode left = compactEncode right → left = right) ∧
    ∀ str, decodeCompact (compactHexDecode str) = str := by
  refine ⟨?_, ?_, decodeCompact_compactHexDecode⟩
  · intro path ok
    exact ⟨compactPath path, compactEncode_eq ok.1, compactDecode_compactPath ok⟩
  · intro left right leftOk rightOk same
    have decoded := compactDecode_compactEncode leftOk
    rw [same, compactDecode_compactEncode rightOk] at decoded
    exact (Option.some.inj decoded).symm

theorem compact_encoding_of_odd :
    (∃ str, compactEncode [1, 2, 3, 16] = some str ∧ compactDecode str = some [1, 2, 3, 16]) ∧
      ∃ str, compactEncode [16] = some str ∧ compactDecode str = some [16] := by
  obtain ⟨decodes, -, -⟩ := compact_encoding_bijective
  constructor
  · exact decodes [1, 2, 3, 16] ⟨by decide, by decide⟩
  · exact decodes [16] ⟨by decide, by decide⟩

end Thelonious
