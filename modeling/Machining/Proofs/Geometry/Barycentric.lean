import Machining.Geometry.Triangle
import Machining.Proofs.Geometry.Distance
import Machining.Scalar.Double

/-!
# The points of a triangle

Every point of a triangle is a mean of its corners with weights that are not negative.  With exact
arithmetic the barycentric coordinates recover these weights, because the Gram determinant by which
they are divided is the squared length of the normal (Lagrange's identity).  The tolerance that
tells a triangle with an area from one without is applied to both, to the length and to its
square: a triangle whose normal is short but long enough passes the first test and fails the
second, and then it holds none of its own points.

* `Point.length_cross_sq` — Lagrange's identity;
* `Triangle.contains_iff` — the tests that a point has to pass;
* `Triangle.weights?_weighed` — the weights of a mean of the corners are recovered;
* `Triangle.ownPoints_iff` — a triangle holds its own points exactly if the squared length of its
  normal reaches the tolerance.
-/

set_option autoImplicit false

namespace Machining

/-! ## Vectors -/

namespace Point

section Coordinates

variable (a b : Point ℝ) (k : ℝ)

theorem add_def : a + b = ⟨a.x + b.x, a.y + b.y, a.z + b.z⟩ := rfl

theorem sub_def : a - b = ⟨a.x - b.x, a.y - b.y, a.z - b.z⟩ := rfl

theorem scale_def : a.scale k = ⟨a.x * k, a.y * k, a.z * k⟩ := rfl

end Coordinates

variable (a b c : Point ℝ)

theorem dot_comm : a.dot b = b.dot a := by
  simp only [dot]
  ring

theorem dot_add : a.dot (b + c) = a.dot b + a.dot c := by
  simp only [dot, add_def]
  ring

theorem dot_scale (k : ℝ) : a.dot (b.scale k) = a.dot b * k := by
  simp only [dot, scale_def]
  ring

theorem length_nonneg : 0 ≤ a.length := Real.sqrt_nonneg _

theorem length_sq : a.length ^ 2 = a.dot a := by
  have hdot : 0 ≤ a.dot a := by
    exact add_nonneg (add_nonneg (mul_self_nonneg _) (mul_self_nonneg _)) (mul_self_nonneg _)
  exact Real.sq_sqrt hdot

theorem length_scale (k : ℝ) : (a.scale k).length = |k| * a.length := by
  have hsq : (a.scale k).length ^ 2 = (|k| * a.length) ^ 2 := by
    rw [mul_pow, sq_abs, length_sq, length_sq, dot_scale, dot_comm, dot_scale]
    ring
  exact (sq_eq_sq₀ (length_nonneg _) (mul_nonneg (abs_nonneg k) a.length_nonneg)).1 hsq

theorem cross_dot_left : (a.cross b).dot a = 0 := by
  simp only [dot, cross]
  ring

theorem cross_dot_right : (a.cross b).dot b = 0 := by
  simp only [dot, cross]
  ring

/-- **Lagrange's identity.** -/
theorem length_cross_sq :
    (a.cross b).length ^ 2 = b.dot b * a.dot a - b.dot a * b.dot a := by
  rw [length_sq]
  simp only [dot, cross]
  ring

/-- Scalar products with a sum of two multiples. -/
theorem combination_dot (v w : ℝ) :
    (a.scale v + b.scale w).dot c = v * a.dot c + w * b.dot c := by
  rw [dot_comm, dot_add, dot_scale, dot_scale, dot_comm c a, dot_comm c b]
  ring

/-- The vector product is normal to both factors. -/
theorem cross_dot_combination (v w : ℝ) : (a.cross b).dot (a.scale v + b.scale w) = 0 := by
  rw [dot_add, dot_scale, dot_scale, cross_dot_left, cross_dot_right, zero_mul, zero_mul, add_zero]

end Point

namespace Triangle

variable (t : Triangle ℝ) {p v0 v1 v2 : Point ℝ}

/-! ## The tests -/

theorem tolerance_real : (tolerance : ℝ) = 1e-9 := rfl

theorem tolerance_pos : (0 : ℝ) < tolerance := by
  rw [tolerance_real]
  norm_num

/-- The vector product of the sides from the first corner; its length is twice the area. -/
noncomputable def normal : Point ℝ := (t.b - t.a).cross (t.c - t.a)

variable {t}

/-- The barycentric coordinates are quotients by the squared length of the normal. -/
theorem weights?_eq (h0 : t.c - t.a = v0) (h1 : t.b - t.a = v1) (h2 : p - t.a = v2) :
    t.weights? p = if t.normal.length ^ 2 < tolerance then none else
      some ((v1.dot v1 * v2.dot v0 - v0.dot v1 * v2.dot v1) / t.normal.length ^ 2,
        (v0.dot v0 * v2.dot v1 - v0.dot v1 * v2.dot v0) / t.normal.length ^ 2) := by
  subst h0 h1 h2
  have hgram := Point.length_cross_sq (t.b - t.a) (t.c - t.a)
  unfold weights?
  dsimp only
  rw [Scalar.magnitude_real]
  show (if |(t.c - t.a).dot (t.c - t.a) * (t.b - t.a).dot (t.b - t.a) -
    (t.c - t.a).dot (t.b - t.a) * (t.c - t.a).dot (t.b - t.a)| < tolerance then none else
      some (_ / ((t.c - t.a).dot (t.c - t.a) * (t.b - t.a).dot (t.b - t.a) -
        (t.c - t.a).dot (t.b - t.a) * (t.c - t.a).dot (t.b - t.a)), _ / _)) = _
  -- the determinant is a square, so its magnitude is itself
  rw [← hgram, abs_of_nonneg (sq_nonneg _)]
  rfl

/-- **The tests that a point has to pass.** -/
theorem contains_iff : t.contains p = true ↔ tolerance ≤ t.normal.length ∧
    |t.normal.dot (p - t.a) / t.normal.length| ≤ tolerance *
      (1 + max (max (t.c - t.a).length (t.b - t.a).length) (p - t.a).length) ∧
    ∃ v w, t.weights? p = some (v, w) ∧
      -tolerance ≤ 1 - v - w ∧ -tolerance ≤ v ∧ -tolerance ≤ w := by
  unfold contains
  dsimp only
  rw [Scalar.magnitude_real, Scalar.greater_real, Scalar.greater_real, Scalar.one_real]
  show (if t.normal.length < tolerance then false else
    if tolerance * (1 + max (max (t.c - t.a).length (t.b - t.a).length) (p - t.a).length) <
      |t.normal.dot (p - t.a) / t.normal.length| then false else _) = true ↔ _
  by_cases harea : t.normal.length < tolerance
  · simp [harea, not_le.2 harea]
  rw [if_neg harea, and_iff_right (not_lt.1 harea)]
  by_cases hplane : tolerance *
      (1 + max (max (t.c - t.a).length (t.b - t.a).length) (p - t.a).length) <
        |t.normal.dot (p - t.a) / t.normal.length|
  · simp [hplane, not_le.2 hplane]
  rw [if_neg hplane, and_iff_right (not_lt.1 hplane)]
  cases t.weights? p with
  | none => simp
  | some vw =>
    obtain ⟨v, w⟩ := vw
    simp only [Bool.and_eq_true, decide_eq_true_eq, Option.some.injEq, Prod.mk.injEq, and_assoc,
      exists_and_left, exists_eq_left']

/-- A triangle whose normal is too short in the square holds nothing. -/
theorem tolerance_le_of_contains (h : t.contains p = true) :
    tolerance ≤ t.normal.length ^ 2 := by
  obtain ⟨-, -, v, w, hweights, -⟩ := contains_iff.1 h
  rw [weights?_eq rfl rfl rfl] at hweights
  by_contra hshort
  rw [if_pos (not_le.1 hshort)] at hweights
  cases hweights

/-- Enough length in the square is enough length. -/
theorem tolerance_le_of_sq (h : tolerance ≤ t.normal.length ^ 2) :
    tolerance ≤ t.normal.length := by
  have hlength := t.normal.length_nonneg
  -- the tolerance is below one, so its root exceeds it
  rw [tolerance_real] at h ⊢
  nlinarith

/-! ## Means of the corners -/

/-- The mean of the corners with the given weights. -/
noncomputable def weighed (t : Triangle ℝ) (u v w : ℝ) : Point ℝ :=
  t.a.scale u + t.b.scale v + t.c.scale w

variable {u v w : ℝ}

theorem weighed_sub (hsum : u + v + w = 1) :
    t.weighed u v w - t.a = (t.b - t.a).scale v + (t.c - t.a).scale w := by
  obtain rfl : u = 1 - v - w := by linarith
  simp only [weighed, Point.add_def, Point.sub_def, Point.scale_def, Point.mk.injEq]
  refine ⟨by ring, by ring, by ring⟩

/-- **The weights are recovered.** -/
theorem weights?_weighed (hlong : tolerance ≤ t.normal.length ^ 2) (hsum : u + v + w = 1) :
    t.weights? (t.weighed u v w) = some (w, v) := by
  have hpos : t.normal.length ^ 2 ≠ 0 := (tolerance_pos.trans_le hlong).ne'
  have hgram : t.normal.length ^ 2 = (t.c - t.a).dot (t.c - t.a) * (t.b - t.a).dot (t.b - t.a) -
      (t.c - t.a).dot (t.b - t.a) * (t.c - t.a).dot (t.b - t.a) := Point.length_cross_sq _ _
  rw [weights?_eq rfl rfl (weighed_sub hsum), if_neg (not_lt.2 hlong)]
  simp only [Point.combination_dot, Point.dot_comm (t.b - t.a) (t.c - t.a), Option.some.injEq,
    Prod.mk.injEq]
  constructor
  · rw [div_eq_iff hpos, hgram]
    ring
  · rw [div_eq_iff hpos, hgram]
    ring

theorem normal_dot_weighed_sub (hsum : u + v + w = 1) :
    t.normal.dot (t.weighed u v w - t.a) = 0 := by
  rw [weighed_sub hsum]
  exact Point.cross_dot_combination _ _ v w

/-- **A triangle with a long enough normal holds the means of its corners.** -/
theorem contains_weighed (hlong : tolerance ≤ t.normal.length ^ 2) (hu : 0 ≤ u) (hv : 0 ≤ v)
    (hw : 0 ≤ w) (hsum : u + v + w = 1) : t.contains (t.weighed u v w) = true := by
  have htolerance := tolerance_pos
  refine contains_iff.2 ⟨tolerance_le_of_sq hlong, ?plane, w, v, weights?_weighed hlong hsum,
    by linarith, by linarith, by linarith⟩
  case plane =>
    have hside := (t.c - t.a).length_nonneg
    have hextent : 0 ≤ max (max (t.c - t.a).length (t.b - t.a).length)
        (t.weighed u v w - t.a).length := le_max_of_le_left (le_max_of_le_left hside)
    rw [normal_dot_weighed_sub hsum, zero_div, abs_zero]
    positivity

/-! ## Own points -/

theorem weighed_first (t : Triangle ℝ) : t.weighed 1 0 0 = t.a := by
  simp only [weighed, Point.add_def, Point.scale_def, mul_one, mul_zero, add_zero]

theorem overlaps_self_iff : t.overlaps t = true ↔ ∃ p ∈ t.corners, t.contains p = true := by
  unfold overlaps
  rw [Bool.or_self, List.any_eq_true]

/-- **A triangle holds its own points exactly if its normal is long enough in the square.**  The
test for an area asks for the length only, so it lets triangles pass that hold none of their
points, not even their corners, and do not overlap themselves. -/
theorem ownPoints_iff (t : Triangle ℝ) :
    ((∀ u v w : ℝ, 0 ≤ u → 0 ≤ v → 0 ≤ w → u + v + w = 1 →
      t.contains (t.weighed u v w) = true) ↔ 1e-9 ≤ t.normal.length ^ 2) ∧
    (t.overlaps t = true ↔ 1e-9 ≤ t.normal.length ^ 2) := by
  have hfirst (h : 1e-9 ≤ t.normal.length ^ 2) : t.contains t.a = true := by
    rw [← t.weighed_first]
    exact contains_weighed h zero_le_one le_rfl le_rfl (by norm_num)
  constructor
  · constructor
    · intro h
      exact tolerance_le_of_contains (h 1 0 0 zero_le_one le_rfl le_rfl (by norm_num))
    · intro h u v w hu hv hw hsum
      exact contains_weighed h hu hv hw hsum
  · rw [overlaps_self_iff]
    constructor
    · rintro ⟨p, -, hp⟩
      exact tolerance_le_of_contains hp
    · intro h
      exact ⟨t.a, List.mem_cons_self, hfirst h⟩

/-- A right triangle with legs of a thousandth of a millimetre. -/
def smallTriangle {α : Type} [Scalar α] : Triangle α := ⟨⟨0, 0, 0⟩, ⟨0.001, 0, 0⟩, ⟨0, 0.001, 0⟩⟩

/-- The small triangle passes the test for an area, and yet with exact arithmetic and with doubles
alike it does not hold its first corner and does not overlap itself. -/
theorem ownPoints_missed_smallTriangle :
    1e-9 ≤ (smallTriangle : Triangle ℝ).normal.length ∧
    (smallTriangle : Triangle ℝ).contains (weighed smallTriangle 1 0 0) = false ∧
    (smallTriangle : Triangle ℝ).overlaps smallTriangle = false ∧
    (smallTriangle : Triangle Float).contains ⟨0, 0, 0⟩ = false ∧
    (smallTriangle : Triangle Float).overlaps smallTriangle = false := by
  have hlength : (smallTriangle : Triangle ℝ).normal.length ^ 2 = 1e-12 := by
    have hsmall : (smallTriangle : Triangle ℝ) =
        ⟨⟨0, 0, 0⟩, ⟨0.001, 0, 0⟩, ⟨0, 0.001, 0⟩⟩ := by
      simp only [smallTriangle, Scalar.zero_real]
    have hnormal : (smallTriangle : Triangle ℝ).normal =
        ⟨(0 - 0) * (0 - 0) - (0.001 - 0) * (0 - 0), (0 - 0) * (0 - 0) - (0 - 0) * (0.001 - 0),
          (0.001 - 0) * (0.001 - 0) - (0 - 0) * (0 - 0)⟩ := by
      rw [hsmall]
      rfl
    rw [hnormal, Point.length_sq, Point.dot]
    norm_num
  have hnonneg : 0 ≤ (smallTriangle : Triangle ℝ).normal.length := Real.sqrt_nonneg _
  have hshort : ¬(1e-9 : ℝ) ≤ (smallTriangle : Triangle ℝ).normal.length ^ 2 := by
    rw [hlength]
    norm_num
  refine ⟨?_, ?_, ?_, by decide +kernel, by decide +kernel⟩
  · rw [← sq_le_sq₀ (by norm_num) hnonneg, hlength]
    norm_num
  · rw [← Bool.not_eq_true]
    exact fun h => hshort (tolerance_le_of_contains h)
  · rw [← Bool.not_eq_true, overlaps_self_iff]
    rintro ⟨p, -, hp⟩
    exact hshort (tolerance_le_of_contains hp)

end Triangle

end Machining
