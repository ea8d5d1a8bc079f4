import Machining.Proofs.Double.Multiple
import Machining.Proofs.Double.Numeral

/-!
# The order of doubles

Finite doubles are ordered as the numbers that they are.  Infinite doubles lie beyond them, and an
undefined one is neither below nor above any other, so that the extrema pass over it.

* `compare_reading` — finite doubles compare as their exact values;
* `lt_iff_exact`, `le_iff_exact` — the orders that follow;
* `le_iff_not_lt` — which of two doubles that are not finite, or not defined, is at most the other;
* `Denotes.greater`, `Denotes.lesser` — the extrema of finite doubles.
-/

set_option autoImplicit false

namespace Machining.Double

open Float.Model
open Float.Model.UnpackedFloat (Sign)

/-! ## Canonical pairs -/

/-- **Canonical pairs compare** by exponent and then by significand as the numbers they are. -/
theorem Canonical.compare_eq {m n : ℕ} {e f : ℤ} (hm : Canonical m e) (hn : Canonical n f) :
    (compare e f).then (compare m n) = compare ((m : ℚ) * 2 ^ e) (n * 2 ^ f) := by
  rcases lt_trichotomy e f with hlt | rfl | hgt
  · rw [Int.compare_eq_lt.2 hlt, compare_lt_iff_lt.2 (hm.lt_of_exponent_lt hn hlt)]
    rfl
  · have hunit : (0 : ℚ) < 2 ^ e := by positivity
    rw [Int.compare_eq_eq.2 rfl, Ordering.eq_then]
    rcases lt_trichotomy m n with hlt | rfl | hgt
    · rw [Nat.compare_eq_lt.2 hlt, compare_lt_iff_lt.2]
      exact mul_lt_mul_of_pos_right (by exact_mod_cast hlt) hunit
    · rw [Nat.compare_eq_eq.2 rfl, compare_eq_iff_eq.2 rfl]
    · rw [Nat.compare_eq_gt.2 hgt, compare_gt_iff_gt.2]
      exact mul_lt_mul_of_pos_right (by exact_mod_cast hgt) hunit
  · rw [Int.compare_eq_gt.2 hgt, compare_gt_iff_gt.2 (hn.lt_of_exponent_lt hm hgt)]
    rfl

theorem compare_neg (a b : ℚ) : compare (-a) (-b) = (compare a b).swap := by
  rcases lt_trichotomy a b with hlt | rfl | hgt
  · rw [compare_lt_iff_lt.2 hlt, compare_gt_iff_gt.2 (neg_lt_neg hlt)]
    rfl
  · rw [compare_eq_iff_eq.2 rfl, compare_eq_iff_eq.2 rfl]
    rfl
  · rw [compare_gt_iff_gt.2 hgt, compare_lt_iff_lt.2 (neg_lt_neg hgt)]
    rfl

/-! ## Finite doubles -/

variable {x y : Float}

/-- A finite double is zero, or a canonical pair with a sign. -/
theorem finite_cases (hx : x.isFinite = true) :
    (∃ s, reading x = .zero s ∧ exact x = 0) ∨
      ∃ (s : Sign) (m : ℕ) (e : ℤ) (hc : Canonical m e), e ≤ 971 ∧
        reading x = .finite s m e hc.pos ∧ exact x = s.apply m * 2 ^ e := by
  rw [isFinite_eq] at hx
  unfold exact
  cases hu : reading x with
  | notANumber =>
    rw [hu] at hx
    cases hx
  | infinity s =>
    rw [hu] at hx
    cases hx
  | zero s => exact Or.inl ⟨s, rfl, rfl⟩
  | finite s m e hm =>
    obtain ⟨hc, hle⟩ := canonical_of_unpack hu
    exact Or.inr ⟨s, m, e, hc, hle, rfl, rfl⟩

theorem Canonical.value_pos {m : ℕ} {e : ℤ} (h : Canonical m e) : (0 : ℚ) < m * 2 ^ e :=
  mul_pos (by exact_mod_cast h.pos) (by positivity)

/-- **Finite doubles compare as the numbers that they are.** -/
theorem compare_reading (hx : x.isFinite = true) (hy : y.isFinite = true) :
    (reading x).compare (reading y) = some (compare (exact x) (exact y)) := by
  rcases finite_cases hx with ⟨s, hu, hq⟩ | ⟨s, m, e, hm, -, hu, hq⟩ <;>
    rcases finite_cases hy with ⟨t, hv, hr⟩ | ⟨t, n, f, hn, -, hv, hr⟩ <;> rw [hu, hv, hq, hr]
  · rw [compare_eq_iff_eq.2 rfl]
    rfl
  · have hpos := hn.value_pos
    cases t with
    | positive =>
      rw [compare_lt_iff_lt.2 (by simpa [Sign.apply] using hpos)]
      rfl
    | negative =>
      rw [compare_gt_iff_gt.2 (by simpa [Sign.apply] using hpos)]
      rfl
  · have hpos := hm.value_pos
    cases s with
    | positive =>
      rw [compare_gt_iff_gt.2 (by simpa [Sign.apply] using hpos)]
      rfl
    | negative =>
      rw [compare_lt_iff_lt.2 (by simpa [Sign.apply] using hpos)]
      rfl
  · have hm' := hm.value_pos
    have hn' := hn.value_pos
    cases s <;> cases t <;> simp only [Sign.apply, Int.cast_neg, Int.cast_natCast, neg_mul]
    -- of two negative doubles the one with the greater pair is the smaller
    case negative.negative =>
      rw [compare_neg, ← hm.compare_eq hn]
      rfl
    case negative.positive =>
      rw [compare_lt_iff_lt.2 (by linarith)]
      rfl
    case positive.negative =>
      rw [compare_gt_iff_gt.2 (by linarith)]
      rfl
    case positive.positive =>
      rw [← hm.compare_eq hn]
      rfl

theorem compare_swap (u v : UnpackedFloat) : v.compare u = (u.compare v).map Ordering.swap := by
  cases u with
  | notANumber => cases v <;> rfl
  | infinity s =>
    cases v with
    | infinity t => cases s <;> cases t <;> rfl
    | finite t => cases s <;> cases t <;> rfl
    | _ => cases s <;> rfl
  | zero s =>
    cases v with
    | infinity t => cases t <;> rfl
    | finite t => cases t <;> rfl
    | _ => rfl
  | finite s m e hm =>
    cases v with
    | infinity t => cases s <;> cases t <;> rfl
    | finite t n f hn =>
      -- the pairs are compared where the signs agree
      have hswap : (compare f e).then (compare n m) = ((compare e f).then (compare m n)).swap := by
        rw [Ordering.swap_then, Int.compare_swap, Nat.compare_swap]
      cases s <;> cases t <;>
        simp only [UnpackedFloat.compare, Option.map_some, Ordering.swap, hswap]
    | _ => cases s <;> rfl

theorem le_iff (x y : Float) : x ≤ y ↔ (reading x).le (reading y) = true := by
  change decide (x.toModel ≤ y.toModel) = true ↔ _
  rw [decide_eq_true_iff]
  rfl

/-- Of two doubles at most one is below the other. -/
theorem not_le_of_lt (h : x < y) : ¬y ≤ x := by
  rw [lt_iff] at h
  rw [le_iff, UnpackedFloat.le, compare_swap, h]
  nofun

theorem not_lt_of_lt (h : x < y) : ¬y < x := by
  rw [lt_iff] at h
  rw [lt_iff, compare_swap, h]
  nofun

theorem lt_iff_exact (hx : x.isFinite = true) (hy : y.isFinite = true) :
    x < y ↔ exact x < exact y := by
  rw [lt_iff, compare_reading hx hy, Option.some_inj, compare_lt_iff_lt]

theorem le_iff_exact (hx : x.isFinite = true) (hy : y.isFinite = true) :
    x ≤ y ↔ exact x ≤ exact y := by
  rw [le_iff, UnpackedFloat.le, compare_reading hx hy, Option.any_some, Ordering.isLE_iff_ne_gt]
  exact compare_le_iff_le

/-! ## Doubles and the numbers they denote -/

/-- The double is finite, and it is the number `q`. -/
def Denotes (x : Float) (q : ℚ) : Prop := x.isFinite = true ∧ exact x = q

theorem denotes_exact (hx : x.isFinite = true) : Denotes x (exact x) := ⟨hx, rfl⟩

namespace Denotes

variable {q r : ℚ}

theorem lt_iff (hx : Denotes x q) (hy : Denotes y r) : x < y ↔ q < r := by
  rw [lt_iff_exact hx.1 hy.1, hx.2, hy.2]

theorem le_iff (hx : Denotes x q) (hy : Denotes y r) : x ≤ y ↔ q ≤ r := by
  rw [le_iff_exact hx.1 hy.1, hx.2, hy.2]

theorem greater (hx : Denotes x q) (hy : Denotes y r) :
    Denotes (Scalar.greater x y) (max q r) := by
  unfold Scalar.greater
  split
  · rename_i h
    rw [max_eq_right ((hx.lt_iff hy).1 h).le]
    exact hy
  · rename_i h
    rw [if_pos ((hx.le_iff hx).2 le_rfl), max_eq_left (not_lt.1 (mt (hx.lt_iff hy).2 h))]
    exact hx

theorem lesser (hx : Denotes x q) (hy : Denotes y r) :
    Denotes (Scalar.lesser x y) (min q r) := by
  unfold Scalar.lesser
  split
  · rename_i h
    rw [min_eq_right ((hy.lt_iff hx).1 h).le]
    exact hy
  · rename_i h
    rw [if_pos ((hx.le_iff hx).2 le_rfl), min_eq_left (not_lt.1 (mt (hy.lt_iff hx).2 h))]
    exact hx

end Denotes

/-! ## Doubles that denote no number -/

/-- Only undefined readings are not compared. -/
theorem compare_eq_none_iff {u v : UnpackedFloat} :
    u.compare v = none ↔ u = .notANumber ∨ v = .notANumber := by
  cases u with
  | notANumber => exact ⟨fun _ => Or.inl rfl, fun _ => rfl⟩
  | infinity s => cases v <;> cases s <;> simp [UnpackedFloat.compare]
  | zero s =>
    cases v with
    | infinity t => cases t <;> simp [UnpackedFloat.compare]
    | finite t => cases t <;> simp [UnpackedFloat.compare]
    | _ => simp [UnpackedFloat.compare]
  | finite s =>
    cases v with
    | infinity t => cases s <;> cases t <;> simp [UnpackedFloat.compare]
    | finite t => cases s <;> cases t <;> simp [UnpackedFloat.compare]
    | _ => cases s <;> simp [UnpackedFloat.compare]

/-- **A double is at most another** exactly if it is not above it and both are defined. -/
theorem le_iff_not_lt (x y : Float) :
    x ≤ y ↔ ¬y < x ∧ x.isNaN = false ∧ y.isNaN = false := by
  rw [isNaN_eq, isNaN_eq, isNaN_iff, isNaN_iff, ← not_or, ← compare_eq_none_iff, le_iff, lt_iff,
    UnpackedFloat.le, compare_swap (reading x) (reading y)]
  cases (reading x).compare (reading y) with
  | none => simp
  | some o => cases o <;> simp

theorem not_finite_cases (hx : x.isFinite ≠ true) :
    reading x = .notANumber ∨ reading x = .infinity .negative ∨
      reading x = .infinity .positive := by
  rw [isFinite_eq] at hx
  cases hu : reading x with
  | notANumber => exact Or.inl rfl
  | infinity s =>
    cases s with
    | negative => exact Or.inr (Or.inl rfl)
    | positive => exact Or.inr (Or.inr rfl)
  | zero s =>
    rw [hu] at hx
    exact absurd rfl hx
  | finite s m e hm =>
    rw [hu] at hx
    exact absurd rfl hx

/-- Finite readings lie between the infinite ones. -/
theorem compare_infinity {u : UnpackedFloat} (hu : u.isFinite = true) :
    (UnpackedFloat.infinity .negative).compare u = some .lt ∧
      u.compare (.infinity .positive) = some .lt := by
  cases u with
  | notANumber => cases hu
  | infinity s => cases hu
  | zero s => exact ⟨rfl, rfl⟩
  | finite s m e hm => cases s <;> exact ⟨rfl, rfl⟩

theorem negative_lt (hx : reading x = .infinity .negative) (hy : y.isFinite = true) : x < y := by
  rw [lt_iff, hx]
  exact (compare_infinity hy).1

theorem lt_positive (hx : reading x = .infinity .positive) (hy : y.isFinite = true) : y < x := by
  rw [lt_iff, hx]
  exact (compare_infinity hy).2

/-- The extrema pass over an undefined double. -/
theorem extrema_of_undefined (hx : reading x = .notANumber) (y : Float) :
    Scalar.greater x y = y ∧ Scalar.lesser x y = y := by
  have hself : ¬x ≤ x := by
    rw [le_iff, hx]
    nofun
  unfold Scalar.greater Scalar.lesser
  rw [if_neg hself]
  exact ⟨ite_self y, ite_self y⟩

theorem extrema_of_negative (hx : reading x = .infinity .negative) (hy : y.isFinite = true) :
    Scalar.greater x y = y ∧ Scalar.lesser x y = x := by
  have hlt := negative_lt hx hy
  have hself : x ≤ x := by
    rw [le_iff, hx]
    rfl
  unfold Scalar.greater Scalar.lesser
  exact ⟨if_pos hlt, (if_neg (not_lt_of_lt hlt)).trans (if_pos hself)⟩

theorem extrema_of_positive (hx : reading x = .infinity .positive) (hy : y.isFinite = true) :
    Scalar.greater x y = x ∧ Scalar.lesser x y = y := by
  have hlt := lt_positive hx hy
  have hself : x ≤ x := by
    rw [le_iff, hx]
    rfl
  unfold Scalar.greater Scalar.lesser
  exact ⟨(if_neg (not_lt_of_lt hlt)).trans (if_pos hself), if_pos hlt⟩

end Machining.Double
