import Thelonious.Util.Rlp

/-!
# The hash

`Sha3Bin` is a parameter of the model.  No function into 32-byte strings is
injective on all byte strings, so what a result assumes of the hash is that it
does not collide on the strings that matter to it.

For runs on fixed inputs the hash is given by samples of Keccak-256, or by a polynomial
where any hash will do.
-/

namespace Thelonious

/-- What is assumed of the hash: 32 bytes, and no collision in `hashed`. -/
structure Sha3Spec (sha3Bin : Bytes → Bytes) (hashed : Set Bytes) : Prop where
  length_eq : ∀ data, (sha3Bin data).length = 32
  injOn : Set.InjOn sha3Bin hashed

theorem Sha3Spec.mono {sha3Bin : Bytes → Bytes} {small large : Set Bytes}
    (spec : Sha3Spec sha3Bin large) (subset : small ⊆ large) : Sha3Spec sha3Bin small :=
  ⟨spec.length_eq, spec.injOn.mono subset⟩

variable {samples : List (Bytes × Bytes)} {hashed : Set Bytes} {hash : Bytes}

theorem Sha3Spec.ne_nil {sha3Bin : Bytes → Bytes} (spec : Sha3Spec sha3Bin hashed) (data : Bytes) :
    sha3Bin data ≠ [] := by
  intro isEmpty
  have length := spec.length_eq data
  rw [isEmpty] at length
  cases length

/-! ### Samples -/

/-- A digest written as a number. -/
def digest (number : Nat) : Bytes :=
  leftPadBytes (BigEndian.digits number) 32

/-- The hash given by samples, and by `other` elsewhere. -/
def sampled (samples : List (Bytes × Bytes)) (other : Bytes → Bytes) (data : Bytes) : Bytes :=
  (samples.lookup data).getD (other data)

private theorem mem_of_lookup {data : Bytes} (found : samples.lookup data = some hash) :
    (data, hash) ∈ samples := by
  induction samples with
  | nil => cases found
  | cons sample samples induction =>
      obtain ⟨sampleData, sampleHash⟩ := sample
      rw [List.lookup_cons] at found
      split at found
      · rename_i same
        rw [beq_iff_eq.mp same, ← Option.some.inj found]
        exact List.mem_cons_self
      · exact List.mem_cons_of_mem _ (induction found)

private theorem data_eq_of_hash_eq (distinct : (samples.map Prod.snd).Nodup) {left right : Bytes}
    (leftMember : (left, hash) ∈ samples) (rightMember : (right, hash) ∈ samples) : left = right :=
  congrArg Prod.fst (List.inj_on_of_nodup_map distinct leftMember rightMember rfl)

/-- The first 32 bytes, padded. -/
def shortened (data : Bytes) : Bytes :=
  leftPadBytes (data.take 32) 32

theorem length_shortened (data : Bytes) : (shortened data).length = 32 := by
  have bound := List.length_take_le 32 data
  rw [shortened, leftPadBytes, if_neg (by omega), List.length_append, List.length_replicate]
  omega

theorem length_sampled (lengths : ∀ sample ∈ samples, sample.2.length = 32) (data : Bytes) :
    (sampled samples shortened data).length = 32 := by
  unfold sampled
  cases found : samples.lookup data with
  | none => exact length_shortened data
  | some hash => exact lengths (data, hash) (mem_of_lookup found)

/-- A polynomial in the bytes, of which 32 bytes are kept. -/
def folded (data : Bytes) : Bytes :=
  let number := data.foldl (fun number byte => 257 * number + byte.toNat) 1
  (List.range 32).map fun place => UInt8.ofNat (number / 256 ^ place)

theorem length_folded (data : Bytes) : (folded data).length = 32 := by
  simp [folded]

/-- It suffices to list the strings that matter, with distinct hashes. -/
theorem sha3Spec_listed {sha3Bin : Bytes → Bytes} (lengths : ∀ data, (sha3Bin data).length = 32)
    (listed : List Bytes) (covered : ∀ data ∈ hashed, data ∈ listed)
    (distinct : (listed.map sha3Bin).Nodup) : Sha3Spec sha3Bin hashed where
  length_eq := lengths
  injOn := by
    intro left leftMember right rightMember same
    exact List.inj_on_of_nodup_map distinct (covered left leftMember) (covered right rightMember)
      same

/-- Samples can be completed to a function that is injective everywhere, with
longer values elsewhere. -/
theorem sampled_injective (lengths : ∀ sample ∈ samples, sample.2.length = 32)
    (distinct : (samples.map Prod.snd).Nodup) :
    Function.Injective (sampled samples fun data => data ++ List.replicate 33 0) := by
  intro left right same
  unfold sampled at same
  have longer : ∀ {data other hash : Bytes}, samples.lookup other = some hash →
      data ++ List.replicate 33 0 ≠ hash := by
    intro data other hash found isHash
    have length := lengths (other, hash) (mem_of_lookup found)
    rw [← isHash] at length
    simp only [List.length_append, List.length_replicate] at length
    omega
  cases leftFound : samples.lookup left with
  | none =>
      cases rightFound : samples.lookup right with
      | none => simpa [leftFound, rightFound] using same
      | some hash =>
          simp only [leftFound, rightFound, Option.getD_some, Option.getD_none] at same
          exact (longer rightFound same).elim
  | some hash =>
      cases rightFound : samples.lookup right with
      | none =>
          simp only [leftFound, rightFound, Option.getD_some, Option.getD_none] at same
          exact (longer leftFound same.symm).elim
      | some other =>
          simp only [leftFound, rightFound, Option.getD_some] at same
          subst same
          exact data_eq_of_hash_eq distinct (mem_of_lookup leftFound)
            (mem_of_lookup rightFound)

theorem mem_of_sampled {data : Bytes} (length : hash.length = 32)
    (hashed : sampled samples (fun data => data ++ List.replicate 33 0) data = hash) :
    (data, hash) ∈ samples := by
  unfold sampled at hashed
  cases found : samples.lookup data with
  | some sample =>
      rw [found, Option.getD_some] at hashed
      rw [← hashed]
      exact mem_of_lookup found
  | none =>
      rw [found, Option.getD_none] at hashed
      rw [← hashed, List.length_append, List.length_replicate] at length
      omega

end Thelonious
