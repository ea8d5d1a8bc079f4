import Machining.Proofs.Double.Numeral
import Machining.Proofs.Double.Whole

/-!
# Counting up

A double is counted up to the next whole number, and the count stops at the two ends of the words.
The whole number below a double is itself a double, so it can be held against the double to see
whether a fraction is left.

* `ceilCount_of_finite` — the count of a finite double is the least one that is not below it;
* `quotient_cases` — a finite double from zero over a positive one is finite, or infinite without a
  minus sign, and never undefined.
-/

set_option autoImplicit false

namespace Machining.Double

open Float.Model
open Float.Model.UnpackedFloat (Sign)

variable {x y : Float}

/-! ## Finite doubles -/

/-- The whole number before the point, counted, is the double of this number. -/
theorem denotes_ofCount_floor (hx : x.isFinite = true) (hword : ⌊exact x⌋₊ < UInt64.size) :
    Denotes (ofCount ⌊exact x⌋₊) ⌊exact x⌋₊ := by
  refine denotes_ofCount_of_representable hword ?_
  rcases finite_cases hx with ⟨s, -, hq⟩ | ⟨s, m, e, hc, hle, -, hq⟩
  · rw [hq, Nat.floor_zero, Nat.cast_zero]
    exact Or.inl rfl
  · rcases lt_or_ge (exact x) 0 with hneg | hnonneg
    · rw [Nat.floor_of_nonpos hneg.le, Nat.cast_zero]
      exact Or.inl rfl
    · rw [natCast_floor_eq_intCast_floor hnonneg, hq]
      exact representable_floor hc hle

/-- **The count of a finite double** is the least one that is not below it, zero for a negative
one, and at most the largest word. -/
theorem ceilCount_of_finite (hx : x.isFinite = true) :
    ceilCount x = min ⌈exact x⌉₊ largestCount := by
  have hfloor := Nat.floor_le_ceil (exact x)
  have hceil := Nat.ceil_le_floor_add_one (exact x)
  unfold ceilCount
  dsimp only
  rw [floorCount_of_finite hx]
  by_cases hword : ⌊exact x⌋₊ < largestCount
  · have hcount := denotes_ofCount_floor hx (hword.trans (by decide))
    have hiff := hcount.lt_iff (denotes_exact hx)
    rw [min_eq_left hword.le]
    split
    · rename_i hfraction
      have hnext := Nat.lt_ceil.2 (hiff.1 hfraction)
      omega
    · rename_i hwhole
      have hsame := Nat.ceil_le.2 (not_lt.1 (mt hiff.2 hwhole))
      omega
  · -- from the largest word on, both branches stop there
    split
    · omega
    · omega

/-- An infinite double counts as the largest word. -/
theorem ceilCount_of_infinite (hx : reading x = .infinity .positive) :
    ceilCount x = largestCount := by
  have hfloor : floorCount x = largestCount := by
    rw [floorCount_eq, hx]
    rfl
  unfold ceilCount
  dsimp only
  rw [hfloor]
  split
  · exact min_eq_right (Nat.le_succ _)
  · rfl

/-! ## Quotients -/

/-- A finite double that is not below zero is a zero, or it has no minus sign. -/
theorem zero_or_unsigned (hx : x.isFinite = true) (hnonneg : 0 ≤ x) :
    (∃ s, reading x = .zero s) ∨ Unsigned (reading x) := by
  rcases finite_cases hx with ⟨s, hu, -⟩ | ⟨s, m, e, hc, hle, hu, hq⟩
  · exact Or.inl ⟨s, hu⟩
  · have hvalue : 0 ≤ exact x := (denotes_zero_literal.le_iff (denotes_exact hx)).1 hnonneg
    have hpos := hc.value_pos
    rw [hu]
    cases s with
    | positive => exact Or.inr (.finite hc hle)
    | negative =>
      rw [hq] at hvalue
      simp only [Sign.apply, Int.cast_neg, Int.cast_natCast, neg_mul] at hvalue
      linarith

/-- **A quotient of a finite double from zero by a positive one** is finite, or it is beyond the
doubles and infinite. -/
theorem quotient_cases (hx : x.isFinite = true) (hnonneg : 0 ≤ x) (hy : y.isFinite = true)
    (hpos : 0 < y) : (x / y).isFinite = true ∨ reading (x / y) = .infinity .positive := by
  have hvalue : 0 < exact y := (denotes_zero_literal.lt_iff (denotes_exact hy)).1 hpos
  obtain ⟨n, f, hn, hv, -⟩ := keeps_of_exact_pos hvalue
  rw [isFinite_eq, reading_div, hv]
  rcases zero_or_unsigned hx hnonneg with ⟨s, hu⟩ | hunsigned
  · left
    rw [hu, UnpackedFloat.div, stored_zero]
    rfl
  · have hdefined : stored (UnpackedFloat.div Format.binary64 (reading x)
        (.finite .positive n f hn.pos)) ≠ .notANumber := by
      refine stored_ne_undefined (div_ne_undefined ?_ _ _ _ _)
      rintro hu
      rw [isFinite_eq, hu] at hx
      cases hx
    have hy' : Unsigned (reading y) := by
      rw [hv]
      exact .finite hn (canonical_of_unpack hv).2
    have hquotient := unsigned_div hunsigned hy'
    rw [reading_div, hv] at hquotient
    generalize stored (UnpackedFloat.div Format.binary64 (reading x)
      (.finite .positive n f hn.pos)) = u at hdefined hquotient
    cases hquotient with
    | undefined => exact absurd rfl hdefined
    | zero => exact Or.inl rfl
    | finite => exact Or.inl rfl
    | infinity => exact Or.inr rfl

end Machining.Double
