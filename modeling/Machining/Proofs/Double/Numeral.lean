import Machining.Proofs.Double.Unsigned

/-!
# Numerals are never undefined

The double read from decimal digits is zero, a number or infinite, and never undefined; the same
holds of its opposite.

* `stored_ne_undefined` — storing a defined result leaves it defined;
* `isNaN_neg`, `isNaN_ofScientific` — opposites and numerals.
-/

set_option autoImplicit false

namespace Machining.Double

open Float.Model
open Float.Model.UnpackedFloat (Sign packComponents roundWithAccuracy)

/-! ## Defined results -/

theorem isNaN_eq (x : Float) : x.isNaN = (reading x).isNaN := by
  rfl

theorem isNaN_iff {u : UnpackedFloat} : u.isNaN = false ↔ u ≠ .notANumber := by
  cases u <;> simp [UnpackedFloat.isNaN]

/-- A result with a sign is defined. -/
theorem ne_undefined_of_sign? {u : UnpackedFloat} {s : Sign} (h : sign? u = some s) :
    u ≠ .notANumber := by
  rintro rfl
  cases h

/-- Only the greatest exponent field belongs to undefined values. -/
theorem unpack_packComponents_ne_undefined (s : Sign) {x : BitVec 11} (v : BitVec 52)
    (htop : x ≠ -1#11) : UnpackedFloat.unpack Format.binary64
      (packComponents Format.binary64 s x v) ≠ .notANumber := by
  unfold UnpackedFloat.unpack
  simp only [UnpackedFloat.unpackExponent_packComponents]
  rw [if_neg htop]
  split
  · split <;> simp
  · simp

theorem ofNat_ne_greatest {x : ℕ} (h : x < 2047) : BitVec.ofNat 11 x ≠ -1#11 := by
  intro heq
  have hval := congrArg BitVec.toNat heq
  rw [BitVec.toNat_ofNat, Nat.mod_eq_of_lt (by omega)] at hval
  have hmax : (-1#11).toNat = 2047 := rfl
  omega

/-- **Storing a defined result leaves it defined.** -/
theorem stored_ne_undefined {u : UnpackedFloat} (h : u ≠ .notANumber) :
    stored u ≠ .notANumber := by
  cases u with
  | notANumber => exact absurd rfl h
  | infinity s => simp [stored_infinity]
  | zero s => simp [stored_zero]
  | finite s m e hm =>
    unfold stored UnpackedFloat.pack
    dsimp only
    split
    · exact fun hundefined => UnpackedFloat.noConfusion ((stored_infinity s).symm.trans hundefined)
    · rename_i hexponent
      have htop := ofNat_ne_greatest (Nat.lt_of_succ_lt_succ (Nat.lt_of_not_le hexponent))
      split
      · exact unpack_packComponents_ne_undefined s _ htop
      · exact unpack_packComponents_ne_undefined s _ (by decide)

/-! ## Opposites and numerals -/

theorem isNaN_neg (x : Float) : (-x).isNaN = x.isNaN := by
  have hreading : reading (-x) = stored (reading x).neg := rfl
  rw [isNaN_eq, isNaN_eq, hreading]
  cases hx : (reading x).isNaN with
  | false =>
    rw [isNaN_iff] at hx ⊢
    refine stored_ne_undefined ?_
    cases hu : reading x <;> simp_all [UnpackedFloat.neg]
  | true =>
    cases hu : reading x <;> simp_all [UnpackedFloat.isNaN, UnpackedFloat.neg, stored_undefined]

/-- A defined value over a number is defined. -/
theorem div_ne_undefined {u : UnpackedFloat} (hu : u ≠ .notANumber) (s : Sign) (m : ℕ) (e : ℤ)
    (hm : 0 < m) :
    UnpackedFloat.div Format.binary64 u (.finite s m e hm) ≠ .notANumber := by
  cases u with
  | notANumber => exact absurd rfl hu
  | infinity t => exact UnpackedFloat.noConfusion
  | zero t => exact UnpackedFloat.noConfusion
  | finite t n f hn => exact ne_undefined_of_sign? (sign?_roundWithAccuracy _ _ _ _)

/-- A finite number, zero excluded. -/
def isNumber : UnpackedFloat → Bool
  | .finite .. => true
  | _ => false

theorem div_number_ne_undefined {u v : UnpackedFloat} (hu : u ≠ .notANumber)
    (hv : isNumber v = true) : UnpackedFloat.div Format.binary64 u v ≠ .notANumber := by
  cases v with
  | finite s m e hm => exact div_ne_undefined hu s m e hm
  | _ => cases hv

/-- The powers of ten in the table are numbers. -/
theorem isNumber_powerOfTen {i : ℕ} (h : i < Float.exactlyRepresentablePowersOfTen.size) :
    isNumber (reading Float.exactlyRepresentablePowersOfTen[i]) = true := by
  have htable : (Float.exactlyRepresentablePowersOfTen.all fun p => isNumber (reading p)) = true :=
    by decide +kernel
  exact Array.all_eq_true.1 htable i h

/-- The digits of a numeral, read at a power of ten, are defined. -/
theorem ofScientific_ne_undefined (m : ℕ) (e : ℤ) :
    UnpackedFloat.ofScientific Format.binary64 m e ≠ .notANumber := by
  unfold UnpackedFloat.ofScientific
  split
  · exact UnpackedFloat.noConfusion
  · split
    · exact UnpackedFloat.noConfusion
    · split
      · exact UnpackedFloat.noConfusion
      · split
        · exact ne_undefined_of_sign? (sign?_roundWithAccuracy _ _ _ _)
        · exact div_ne_undefined UnpackedFloat.noConfusion _ _ _ _

theorem ofCount_ne_undefined (n : ℕ) : reading (ofCount n) ≠ .notANumber := by
  rw [reading_ofCount]
  refine stored_ne_undefined ?_
  unfold UnpackedFloat.normalize UnpackedFloat.round
  split
  · exact ne_undefined_of_sign? (sign?_roundWithAccuracy _ _ _ _)
  · exact UnpackedFloat.noConfusion
  · exact ne_undefined_of_sign? (sign?_roundWithAccuracy _ _ _ _)

/-- **A numeral is never undefined.** -/
theorem isNaN_ofScientific (m e : ℕ) :
    (OfScientific.ofScientific m true e : Float).isNaN = false := by
  rw [isNaN_eq, isNaN_iff]
  change reading (Float.ofScientific m true e) ≠ .notANumber
  unfold Float.ofScientific
  split
  · rename_i h
    simp only [if_true]
    rw [reading_div]
    exact stored_ne_undefined (div_number_ne_undefined (ofCount_ne_undefined m)
      (isNumber_powerOfTen _))
  · exact stored_ne_undefined (ofScientific_ne_undefined m _)

end Machining.Double
