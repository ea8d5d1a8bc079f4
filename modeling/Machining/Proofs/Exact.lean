import Mathlib
import Machining.Scalar

/-!
# Exact arithmetic

The real numbers are scalars: nothing is rounded, every number is finite, and counts have no
bound.  A statement about the library over `ℝ` is the statement read with exact arithmetic.

Where a statement speaks of numbers that are not finite, `Scalar.exactWith` sets some apart: it is
the same arithmetic with another test for finite numbers.
-/

set_option autoImplicit false

namespace Machining

noncomputable instance : Scalar ℝ where
  decLT := inferInstance
  decLE := inferInstance
  ofCount n := n
  sqrt := Real.sqrt
  isFinite _ := true
  floorCount x := ⌊x⌋₊
  ceilCount x := ⌈x⌉₊
  truncate x := if x < 0 then ⌈x⌉ else ⌊x⌋

namespace Scalar

/-- Exact arithmetic in which the numbers that fail a test count as not finite. -/
@[reducible] noncomputable def exactWith (finite : ℝ → Bool) : Scalar ℝ :=
  { (inferInstance : Scalar ℝ) with isFinite := finite }

@[simp] theorem ofCount_real (n : ℕ) : (ofCount n : ℝ) = n := rfl

-- The numerals of scalars are the numerals of the reals.

theorem zero_real : @OfNat.ofNat ℝ 0 (instOfNat 0) = 0 := Nat.cast_zero

theorem one_real : @OfNat.ofNat ℝ 1 (instOfNat 1) = 1 := Nat.cast_one

theorem ofNat_real (n : ℕ) [n.AtLeastTwo] :
    @OfNat.ofNat ℝ n (instOfNat n) = OfNat.ofNat n := rfl

/-- **The least count of parts, at least one, that together reach a length.** -/
theorem isLeast_ceilCount (length : ℝ) {part : ℝ} (hpart : 0 < part) :
    IsLeast {n : ℕ | 1 ≤ n ∧ length ≤ n * part} (max (ceilCount (length / part)) 1) := by
  have hreaches (n : ℕ) : length ≤ n * part ↔ ceilCount (length / part) ≤ n := by
    show _ ↔ ⌈length / part⌉₊ ≤ n
    rw [Nat.ceil_le, div_le_iff₀ hpart]
  constructor
  · exact ⟨le_max_right _ _, (hreaches _).2 (le_max_left _ _)⟩
  · rintro n ⟨hn, hle⟩
    exact max_le ((hreaches n).1 hle) hn

theorem usable_exactWith (finite : ℝ → Bool) (a : ℝ) :
    @usable ℝ (.exactWith finite) a = true ↔ finite a = true ∧ 0 < a := by
  have hpos : (@OfNat.ofNat ℝ 0 (instOfNat 0) < a) ↔ 0 < a := by
    rw [zero_real]
  unfold usable
  rw [Bool.and_eq_true, decide_eq_true_iff]
  exact and_congr_right fun _ => hpos

theorem lesser_real (a b : ℝ) : lesser a b = min a b := by
  unfold lesser
  split
  · rename_i h
    exact (min_eq_right (le_of_lt h)).symm
  · rename_i h
    rw [if_pos le_rfl, min_eq_left (not_lt.1 h)]

theorem greater_real (a b : ℝ) : greater a b = max a b := by
  unfold greater
  split
  · rename_i h
    exact (max_eq_right (le_of_lt h)).symm
  · rename_i h
    rw [if_pos le_rfl, max_eq_left (not_lt.1 h)]

theorem magnitude_real (a : ℝ) : magnitude a = |a| := by
  unfold magnitude
  rw [zero_real]
  split
  · rename_i h
    exact (abs_of_neg h).symm
  · rename_i h
    exact (abs_of_nonneg (not_lt.1 h)).symm

end Scalar

end Machining
