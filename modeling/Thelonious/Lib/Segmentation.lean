import Mathlib

/-!
# Frames cut into reads

A stream of frames, each of which begins with a header, arrives in reads.  A reader that takes
at most one frame out of its buffer after each read, and that looks at the header of the next
frame as soon as it has any byte of it, needs the whole header at that moment.
-/

namespace Segmentation

/-- Whenever the reader looks at a header, `header` bytes of its frame have arrived.  `frames`
are the lengths of the frames that are left, of which `buffered` bytes have arrived; `begun`
says that the header of the first of them has been read. -/
def whole (header : ℕ) : List ℕ → ℕ → Bool → List ℕ → Bool
  | [], _, _, _ => true
  | _ :: _, _, _, [] => true
  | frame :: frames, buffered, begun, read :: reads =>
      if !begun && buffered + read == 0 then whole header (frame :: frames) 0 false reads
      else
        (begun || header ≤ buffered + read) &&
          if frame ≤ buffered + read then whole header frames (buffered + read - frame) false reads
          else whole header (frame :: frames) (buffered + read) true reads

variable {header frame buffered read : ℕ} {frames reads : List ℕ} {begun : Bool}

theorem whole_nil (header buffered : ℕ) (begun : Bool) (reads : List ℕ) :
    whole header [] buffered begun reads = true := by
  rw [whole]

theorem whole_quiet (quiet : buffered + read = 0) :
    whole header (frame :: frames) buffered false (read :: reads) =
      whole header (frame :: frames) 0 false reads := by
  simp [whole, quiet]

/-- A read that brings something, or a frame whose header has been read. -/
theorem whole_busy (busy : begun = true ∨ buffered + read ≠ 0) :
    whole header (frame :: frames) buffered begun (read :: reads) =
      ((begun || header ≤ buffered + read) &&
        if frame ≤ buffered + read then whole header frames (buffered + read - frame) false reads
        else whole header (frame :: frames) (buffered + read) true reads) := by
  have active : ¬ (!begun && buffered + read == 0) = true := by
    simpa [imp_iff_not_or] using busy
  rw [whole, if_neg active]

theorem whole_torn (nonempty : buffered + read ≠ 0) (torn : buffered + read < header) :
    whole header (frame :: frames) buffered false (read :: reads) = false := by
  rw [whole_busy (.inr nonempty), decide_eq_false (Nat.not_le.mpr torn)]
  rfl

theorem whole_part (busy : begun = true ∨ buffered + read ≠ 0)
    (readable : (begun || decide (header ≤ buffered + read)) = true)
    (part : buffered + read < frame) :
    whole header (frame :: frames) buffered begun (read :: reads) =
      whole header (frame :: frames) (buffered + read) true reads := by
  rw [whole_busy busy, readable, if_neg (Nat.not_le.mpr part), Bool.true_and]

theorem whole_full (busy : begun = true ∨ buffered + read ≠ 0)
    (readable : (begun || decide (header ≤ buffered + read)) = true)
    (full : frame ≤ buffered + read) :
    whole header (frame :: frames) buffered begun (read :: reads) =
      whole header frames (buffered + read - frame) false reads := by
  rw [whole_busy busy, readable, if_pos full, Bool.true_and]

/-- The reads that come first decide nothing that later ones could repair. -/
theorem whole_of_append {more : List ℕ}
    (all : whole header frames buffered begun (reads ++ more) = true) :
    whole header frames buffered begun reads = true := by
  induction reads generalizing frames buffered begun with
  | nil => cases frames <;> rfl
  | cons read reads induction =>
      cases frames with
      | nil => exact whole_nil ..
      | cons frame frames =>
          rw [List.cons_append] at all
          unfold whole at all ⊢
          split at all
          case isTrue quiet =>
            rw [if_pos quiet]
            exact induction all
          case isFalse busy =>
            rw [if_neg busy]
            rw [Bool.and_eq_true] at all ⊢
            refine ⟨all.1, ?_⟩
            split
            case isTrue full =>
              rw [if_pos full] at all
              exact induction all.2
            case isFalse part =>
              rw [if_neg part] at all
              exact induction all.2

end Segmentation
