import Machining.Proofs.Double.Layout
import Machining.Scalar.Double

/-!
# Doubles without a minus sign

A duration is never negative, and neither is a clock that starts at zero; both can be undefined.
Quotients, counts and sums of such doubles are such doubles again.

* `Unsigned` — the readings that are undefined or have no minus sign;
* `unsigned_div`, `unsigned_ofCount` — quotients and counts;
* `unsigned_of_not_lt` — a double that is not below a positive one.
-/

set_option autoImplicit false

namespace Machining.Double

open Float.Model
open Float.Model.UnpackedFloat (Sign unpackSign packComponents roundWithAccuracy)

/-- What a double stands for. -/
def reading (x : Float) : UnpackedFloat := x.toModel.unpack

theorem reading_zero : reading 0 = .zero .positive := by
  rfl

theorem reading_div (x y : Float) :
    reading (x / y) = stored (UnpackedFloat.div Format.binary64 (reading x) (reading y)) := by
  rfl

theorem reading_ofCount (n : ℕ) : reading (ofCount n) =
    stored (UnpackedFloat.normalize Format.binary64 (n.toUInt64.toNat : ℤ) 0 .positive) := by
  rfl

theorem lt_iff (x y : Float) : x < y ↔ (reading x).compare (reading y) = some .lt := by
  change decide (x.toModel < y.toModel) = true ↔ _
  rw [decide_eq_true_iff]
  change ((reading x).compare (reading y) == some .lt) = true ↔ _
  rw [beq_iff_eq]

/-- The readings that are undefined or have no minus sign. -/
inductive Unsigned : UnpackedFloat → Prop
  | undefined : Unsigned .notANumber
  | zero : Unsigned (.zero .positive)
  | finite {m : ℕ} {e : ℤ} (hc : Canonical m e) (he : e ≤ 971) :
      Unsigned (.finite .positive m e hc.pos)
  | infinity : Unsigned (.infinity .positive)

theorem Unsigned.zero_or_finite {u : UnpackedFloat} (h : Unsigned u) (hu : u.isFinite = true) :
    u = .zero .positive ∨
      ∃ (m : ℕ) (e : ℤ) (hc : Canonical m e), e ≤ 971 ∧ u = .finite .positive m e hc.pos := by
  cases h with
  | undefined => cases hu
  | zero => exact Or.inl rfl
  | @finite m e hc he => exact Or.inr ⟨m, e, hc, he, rfl⟩
  | infinity => cases hu

theorem unsigned_zero : Unsigned (reading 0) := by
  rw [reading_zero]
  exact .zero

theorem stored_of_unsigned {u : UnpackedFloat} (h : Unsigned u) : stored u = u := by
  cases h with
  | undefined => exact stored_undefined
  | zero => exact stored_zero _
  | finite hc he => exact stored_finite _ hc he
  | infinity => exact stored_infinity _

/-! ## Signs -/

/-- The sign of a result; none if it is undefined. -/
def sign? : UnpackedFloat → Option Sign
  | .infinity s | .zero s | .finite s _ _ _ => some s
  | .notANumber => none

theorem sign?_unpack (b : BitVec Format.binary64.numBits) :
    sign? (UnpackedFloat.unpack Format.binary64 b) = none ∨
      sign? (UnpackedFloat.unpack Format.binary64 b) = some (Sign.ofBitVec (unpackSign b)) := by
  unfold UnpackedFloat.unpack
  dsimp only
  split
  · split
    · exact Or.inr rfl
    · exact Or.inl rfl
  · split
    · split
      · exact Or.inr rfl
      · exact Or.inr rfl
    · exact Or.inr rfl

/-- A double whose sign is not negative is unsigned. -/
theorem unsigned_unpack {b : BitVec Format.binary64.numBits}
    (h : sign? (UnpackedFloat.unpack Format.binary64 b) ≠ some .negative) :
    Unsigned (UnpackedFloat.unpack Format.binary64 b) := by
  cases hu : UnpackedFloat.unpack Format.binary64 b with
  | notANumber => exact .undefined
  | zero s =>
    rw [hu] at h
    cases s with
    | negative => exact absurd rfl h
    | positive => exact .zero
  | infinity s =>
    rw [hu] at h
    cases s with
    | negative => exact absurd rfl h
    | positive => exact .infinity
  | finite s m e hm =>
    rw [hu] at h
    cases s with
    | negative => exact absurd rfl h
    | positive => exact .finite (canonical_of_unpack hu).1 (canonical_of_unpack hu).2

theorem unpackSign_pack {u : UnpackedFloat} (h : sign? u = some .positive ∨ sign? u = none) :
    unpackSign (UnpackedFloat.pack Format.binary64 u) = 0#1 := by
  cases u with
  | notANumber => rfl
  | zero s =>
    cases s with
    | negative => simp [sign?] at h
    | positive => rfl
  | infinity s =>
    cases s with
    | negative => simp [sign?] at h
    | positive => rfl
  | finite s m e hm =>
    cases s with
    | negative => simp [sign?] at h
    | positive =>
      unfold UnpackedFloat.pack
      dsimp only
      split
      · rfl
      · split
        · exact unpackSign_packComponents _ _ _
        · exact unpackSign_packComponents _ _ _

/-- **Storing keeps a sign that is not negative.** -/
theorem unsigned_stored {u : UnpackedFloat} (h : sign? u = some .positive ∨ sign? u = none) :
    Unsigned (stored u) := by
  refine unsigned_unpack fun hneg => ?_
  rcases sign?_unpack (UnpackedFloat.pack Format.binary64 u) with hnone | hsome
  · rw [hnone] at hneg
    cases hneg
  · rw [hsome, unpackSign_pack h] at hneg
    cases hneg

/-! ## Quotients, counts and bounds -/

theorem sign?_roundWithAccuracy (s : Sign) (m : ℕ) (e : ℤ) (a : UnpackedFloat.Accuracy) :
    sign? (roundWithAccuracy Format.binary64 s m e a) = some s := by
  unfold roundWithAccuracy
  dsimp only
  split
  · rfl
  · rfl

/-- A quotient of unsigned doubles is unsigned. -/
theorem unsigned_div {x y : Float} (hx : Unsigned (reading x)) (hy : Unsigned (reading y)) :
    Unsigned (reading (x / y)) := by
  rw [reading_div]
  refine unsigned_stored ?_
  generalize reading x = u at hx
  generalize reading y = v at hy
  cases hx with
  | undefined => exact Or.inr rfl
  | zero => cases hy <;> first | exact Or.inl rfl | exact Or.inr rfl
  | finite =>
    cases hy with
    | undefined => exact Or.inr rfl
    | zero => exact Or.inl rfl
    | finite => exact Or.inl (sign?_roundWithAccuracy _ _ _ _)
    | infinity => exact Or.inl rfl
  | infinity => cases hy <;> first | exact Or.inl rfl | exact Or.inr rfl

/-- A count is unsigned. -/
theorem unsigned_ofCount (n : ℕ) : Unsigned (reading (ofCount n)) := by
  rw [reading_ofCount]
  refine unsigned_stored (Or.inl ?_)
  unfold UnpackedFloat.normalize UnpackedFloat.round
  split
  · rename_i h
    have := Int.compare_eq_lt.1 h
    omega
  · rfl
  · exact sign?_roundWithAccuracy _ _ _ _

/-- A negative double comes before every positive one. -/
theorem compare_of_negative {u v : UnpackedFloat} (hu : sign? u = some .negative)
    (hv : (UnpackedFloat.zero .positive).compare v = some .lt) : u.compare v = some .lt := by
  cases v with
  | notANumber => cases hv
  | zero s => cases hv
  | infinity s =>
    cases s with
    | negative => cases hv
    | positive => cases u <;> cases hu <;> rfl
  | finite s n f hn =>
    cases s with
    | negative => cases hv
    | positive => cases u <;> cases hu <;> rfl

/-- A double that is not below a positive one is unsigned. -/
theorem unsigned_of_not_lt {x y : Float} (hy : 0 < y) (h : ¬x < y) : Unsigned (reading x) := by
  -- a negative reading would be below `y`
  refine unsigned_unpack fun hneg => h ?_
  rw [lt_iff, reading_zero] at hy
  rw [lt_iff]
  exact compare_of_negative hneg hy

end Machining.Double
