import Machining.Proofs.Geometry.Barycentric

/-!
# Points and the plane of a triangle

A triangle with an area spans a plane.  Every point is a mean of the corners, with weights of any
sign, moved along the unit normal by its height above the plane.  The weights are the barycentric
coordinates, which do not see the normal, and what they leave over is normal to both sides.  So
the tests of `Triangle.contains` bound exactly these four numbers.

* `Point.scale_gram` — a vector by two others and their vector product;
* `Triangle.eq_raised` — every point is a mean of the corners at a height;
* `Triangle.contains_iff_covers` — a triangle holds a point exactly if its normal is long enough,
  no weight is below minus the tolerance, and the height is within it;
* `Triangle.contains_near` — so a point that a triangle holds lies on it within the tolerance, and
  triangles whose corners keep away from each other's planes do not overlap.
-/

set_option autoImplicit false

namespace Machining

/-- **A vector by two others and their vector product**, all of it multiplied by the squared
length of that product. -/
theorem Point.scale_gram (a b c : Point ℝ) : c.scale ((a.cross b).dot (a.cross b)) =
    (a.cross b).scale ((a.cross b).dot c) + (a.scale (b.dot b * c.dot a - b.dot a * c.dot b) +
      b.scale (a.dot a * c.dot b - b.dot a * c.dot a)) := by
  simp only [add_def, scale_def, dot, cross, mk.injEq]
  refine ⟨by ring, by ring, by ring⟩

namespace Triangle

variable {t : Triangle ℝ} {p q : Point ℝ} {u v w h : ℝ}

/-! ## Heights -/

/-- The normal with length one. -/
noncomputable def unitNormal (t : Triangle ℝ) : Point ℝ := t.normal.scale t.normal.length⁻¹

/-- The height of a point above the plane of the triangle, below zero on the other side. -/
noncomputable def height (t : Triangle ℝ) (p : Point ℝ) : ℝ :=
  t.normal.dot (p - t.a) / t.normal.length

/-- The mean of the corners with the given weights, moved along the unit normal. -/
noncomputable def raised (t : Triangle ℝ) (u v w h : ℝ) : Point ℝ :=
  t.weighed u v w + t.unitNormal.scale h

/-- The greatest distance from the first corner to another one or to the point. -/
noncomputable def extent (t : Triangle ℝ) (p : Point ℝ) : ℝ :=
  max (max (t.b - t.a).length (t.c - t.a).length) (p - t.a).length

theorem length_unitNormal (hn : t.normal.length ≠ 0) : t.unitNormal.length = 1 := by
  unfold unitNormal
  rw [Point.length_scale, abs_inv, abs_of_nonneg t.normal.length_nonneg, inv_mul_cancel₀ hn]

theorem dot_unitNormal (c : Point ℝ) :
    c.dot t.unitNormal = t.normal.dot c * t.normal.length⁻¹ := by
  unfold unitNormal
  rw [Point.dot_scale, Point.dot_comm]

theorem raised_sub (t : Triangle ℝ) (u v w h : ℝ) (c : Point ℝ) :
    t.raised u v w h - c = (t.weighed u v w - c) + t.unitNormal.scale h := by
  unfold raised
  simp only [Point.add_def, Point.sub_def, Point.mk.injEq]
  refine ⟨by ring, by ring, by ring⟩

/-- A point at a height is that far away from the mean of the corners below it. -/
theorem distance_raised (hn : t.normal.length ≠ 0) :
    (t.raised u v w h).distance (t.weighed u v w) = |h| := by
  have hway : t.raised u v w h - t.weighed u v w = t.unitNormal.scale h := by
    unfold raised
    simp only [Point.add_def, Point.sub_def, Point.scale_def, add_sub_cancel_left]
  show (t.raised u v w h - t.weighed u v w).length = |h|
  rw [hway, Point.length_scale, length_unitNormal hn, mul_one]

theorem height_raised (hn : t.normal.length ≠ 0) (hsum : u + v + w = 1) :
    t.height (t.raised u v w h) = h := by
  unfold height
  rw [raised_sub, Point.dot_add, Point.dot_scale, normal_dot_weighed_sub hsum, dot_unitNormal,
    ← Point.length_sq, pow_two, mul_inv_cancel_right₀ hn, zero_add, mul_div_cancel_left₀ _ hn]

/-! ## Weights -/

/-- Barycentric coordinates depend on the products with the two sides alone. -/
theorem weights?_congr (h0 : (p - t.a).dot (t.c - t.a) = (q - t.a).dot (t.c - t.a))
    (h1 : (p - t.a).dot (t.b - t.a) = (q - t.a).dot (t.b - t.a)) :
    t.weights? p = t.weights? q := by
  unfold weights?
  simp only [h0, h1]

/-- **The weights of a point at any height are recovered.** -/
theorem weights?_raised (hlong : tolerance ≤ t.normal.length ^ 2) (hsum : u + v + w = 1) :
    t.weights? (t.raised u v w h) = some (w, v) := by
  have hside (c : Point ℝ) (hc : t.normal.dot c = 0) :
      (t.raised u v w h - t.a).dot c = (t.weighed u v w - t.a).dot c := by
    rw [Point.dot_comm, raised_sub, Point.dot_add, Point.dot_scale, dot_unitNormal, hc, zero_mul,
      zero_mul, add_zero, Point.dot_comm]
  rw [← weights?_weighed hlong hsum]
  exact weights?_congr (hside _ (Point.cross_dot_right _ _)) (hside _ (Point.cross_dot_left _ _))

/-- **Every point is a mean of the corners at a height**: its barycentric coordinates are the
weights. -/
theorem eq_raised (hweights : t.weights? p = some (v, w)) :
    p = t.raised (1 - v - w) w v (t.height p) := by
  rw [weights?_eq rfl rfl rfl] at hweights
  split at hweights
  · cases hweights
  rename_i hlong
  have hpos : t.normal.length ^ 2 ≠ 0 := (tolerance_pos.trans_le (not_lt.1 hlong)).ne'
  obtain ⟨hv, hw⟩ := Prod.mk.inj (Option.some.inj hweights)
  have hgram := Point.scale_gram (t.b - t.a) (t.c - t.a) (p - t.a)
  rw [← normal, ← Point.length_sq, (div_eq_iff hpos).1 hv, (div_eq_iff hpos).1 hw] at hgram
  -- one coordinate at a time: `n` of the normal, `d` its product with the way from the first corner
  have hcoordinate (a b c p n d l : ℝ) (hl : l ^ 2 ≠ 0)
      (h : (p - a) * l ^ 2 = n * d + ((b - a) * (w * l ^ 2) + (c - a) * (v * l ^ 2))) :
      p = a * (1 - v - w) + b * w + c * v + n * l⁻¹ * (d / l) := by
    have hl' : l ≠ 0 := fun hzero => hl (by rw [hzero]; ring)
    field_simp
    linarith
  simp only [Point.add_def, Point.scale_def, Point.mk.injEq] at hgram
  obtain ⟨hx, hy, hz⟩ := hgram
  show (⟨p.x, p.y, p.z⟩ : Point ℝ) = ⟨_, _, _⟩
  congr 1
  · exact hcoordinate _ _ _ _ _ _ _ hpos hx
  · exact hcoordinate _ _ _ _ _ _ _ hpos hy
  · exact hcoordinate _ _ _ _ _ _ _ hpos hz

/-! ## The tests -/

/-- The point lies above or below the triangle, widened by the tolerance. -/
def Covers (t : Triangle ℝ) (p : Point ℝ) : Prop :=
  ∃ u v w h, u + v + w = 1 ∧ -tolerance ≤ u ∧ -tolerance ≤ v ∧ -tolerance ≤ w ∧
    p = t.raised u v w h

/-- The point lies in the plane of the corners. -/
def Spans (t : Triangle ℝ) (q : Point ℝ) : Prop :=
  ∃ u v w, u + v + w = 1 ∧ q = t.weighed u v w

theorem length_normal_ne_zero (hlong : tolerance ≤ t.normal.length ^ 2) : t.normal.length ≠ 0 :=
  (tolerance_pos.trans_le (tolerance_le_of_sq hlong)).ne'

/-- **What a triangle holds**: the points above and below it that are no higher than the tolerance
scaled by the extent, if its normal is long enough in the square. -/
theorem contains_iff_covers : t.contains p = true ↔ tolerance ≤ t.normal.length ^ 2 ∧
    t.Covers p ∧ |t.height p| ≤ tolerance * (1 + t.extent p) := by
  have hextent : max (max (t.c - t.a).length (t.b - t.a).length) (p - t.a).length = t.extent p := by
    unfold extent
    rw [max_comm (t.c - t.a).length]
  constructor
  · intro hp
    have hlong := tolerance_le_of_contains hp
    obtain ⟨-, hplane, v, w, hweights, hu, hv, hw⟩ := contains_iff.1 hp
    rw [hextent] at hplane
    exact ⟨hlong, ⟨_, w, v, _, by ring, hu, hw, hv, eq_raised hweights⟩, hplane⟩
  · rintro ⟨hlong, ⟨u, v, w, h, hsum, hu, hv, hw, rfl⟩, hplane⟩
    rw [contains_iff, hextent]
    refine ⟨tolerance_le_of_sq hlong, hplane, w, v, weights?_raised hlong hsum, ?_, hw, hv⟩
    linarith

/-- The weights and the height of a point that a triangle holds. -/
theorem exists_raised_of_contains (hp : t.contains p = true) :
    ∃ u v w h, -1e-9 ≤ u ∧ -1e-9 ≤ v ∧ -1e-9 ≤ w ∧ u + v + w = 1 ∧
      |h| ≤ 1e-9 * (1 + t.extent p) ∧ p = t.raised u v w h := by
  obtain ⟨hlong, ⟨u, v, w, h, hsum, hu, hv, hw, rfl⟩, hheight⟩ := contains_iff_covers.1 hp
  rw [height_raised (length_normal_ne_zero hlong) hsum] at hheight
  exact ⟨u, v, w, h, hu, hv, hw, hsum, hheight, rfl⟩

/-- A triangle does not hold a point that keeps away from its plane. -/
theorem contains_eq_false_of_far
    (hfar : ∀ q, t.Spans q → 1e-9 * (1 + t.extent p) < p.distance q) : t.contains p = false := by
  rw [← Bool.not_eq_true]
  intro hp
  have hn := length_normal_ne_zero (tolerance_le_of_contains hp)
  obtain ⟨u, v, w, h, -, -, -, hsum, hheight, hraised⟩ := exists_raised_of_contains hp
  -- the mean of the corners below the point is too near
  have hbelow := hfar _ ⟨u, v, w, hsum, rfl⟩
  rw [hraised, distance_raised hn, ← hraised] at hbelow
  exact absurd hheight (not_le.2 hbelow)

theorem overlaps_eq_false_iff {s : Triangle ℝ} : s.overlaps t = false ↔
    (∀ p ∈ s.corners, t.contains p = false) ∧ ∀ p ∈ t.corners, s.contains p = false := by
  unfold overlaps
  simp only [Bool.or_eq_false_iff, List.any_eq_false, Bool.not_eq_true]

/-- **A point that a triangle holds lies on it, within the tolerance**: it is a mean of the corners
with weights that are hardly negative, moved along the unit normal by next to nothing.  So two
triangles do not overlap whose corners are all farther than that from the other's plane. -/
theorem contains_near :
    (∀ (t : Triangle ℝ) (p : Point ℝ), t.contains p = true → t.unitNormal.length = 1 ∧
      ∃ u v w h, -1e-9 ≤ u ∧ -1e-9 ≤ v ∧ -1e-9 ≤ w ∧ u + v + w = 1 ∧
        |h| ≤ 1e-9 * (1 + t.extent p) ∧
        p = t.a.scale u + t.b.scale v + t.c.scale w + t.unitNormal.scale h) ∧
    ∀ s t : Triangle ℝ,
      (∀ p ∈ s.corners, ∀ q, t.Spans q → 1e-9 * (1 + t.extent p) < p.distance q) →
      (∀ p ∈ t.corners, ∀ q, s.Spans q → 1e-9 * (1 + s.extent p) < p.distance q) →
      s.overlaps t = false := by
  constructor
  · intro t p hp
    have hn := length_normal_ne_zero (tolerance_le_of_contains hp)
    exact ⟨length_unitNormal hn, exists_raised_of_contains hp⟩
  · intro s t hs ht
    rw [overlaps_eq_false_iff]
    exact ⟨fun p hp => contains_eq_false_of_far (hs p hp),
      fun p hp => contains_eq_false_of_far (ht p hp)⟩

/-- A right triangle with legs of one millimetre, at a height above the XY plane. -/
def rightTriangle {α : Type} [Scalar α] (z : α) : Triangle α := ⟨⟨0, 0, z⟩, ⟨1, 0, z⟩, ⟨0, 1, z⟩⟩

theorem rightTriangle_real (z : ℝ) : rightTriangle z = ⟨⟨0, 0, z⟩, ⟨1, 0, z⟩, ⟨0, 1, z⟩⟩ := by
  simp only [rightTriangle, Scalar.zero_real, Scalar.one_real]

theorem normal_rightTriangle (z : ℝ) : (rightTriangle z).normal = ⟨0, 0, 1⟩ := by
  rw [rightTriangle_real]
  simp [normal, Point.cross, Point.sub_def]

theorem length_normal_rightTriangle (z : ℝ) : (rightTriangle z).normal.length = 1 := by
  rw [normal_rightTriangle]
  simp [Point.length_eq, Point.along]

theorem raised_rightTriangle {z : ℝ} (hsum : u + v + w = 1) :
    (rightTriangle z).raised u v w h = ⟨v, w, z + h⟩ := by
  obtain rfl : u = 1 - v - w := by linarith
  unfold raised weighed unitNormal
  rw [length_normal_rightTriangle, normal_rightTriangle, rightTriangle_real]
  simp only [Point.add_def, Point.scale_def, Point.mk.injEq, inv_one]
  refine ⟨by ring, by ring, by ring⟩

theorem covers_rightTriangle_iff {z : ℝ} : (rightTriangle z).Covers p ↔
    -1e-9 ≤ 1 - p.x - p.y ∧ -1e-9 ≤ p.x ∧ -1e-9 ≤ p.y := by
  constructor
  · rintro ⟨u, v, w, h, hsum, hu, hv, hw, rfl⟩
    rw [raised_rightTriangle hsum]
    obtain rfl : u = 1 - v - w := by linarith
    exact ⟨hu, hv, hw⟩
  · rintro ⟨hu, hv, hw⟩
    have hsum : 1 - p.x - p.y + p.x + p.y = 1 := by ring
    refine ⟨_, _, _, p.z - z, hsum, hu, hv, hw, ?_⟩
    rw [raised_rightTriangle hsum, add_sub_cancel]

theorem height_rightTriangle {z : ℝ} : (rightTriangle z).height p = p.z - z := by
  unfold height
  rw [length_normal_rightTriangle, normal_rightTriangle, rightTriangle_real]
  simp [Point.dot, Point.sub_def]

theorem extent_rightTriangle {z : ℝ} :
    (rightTriangle z).extent p = max 1 (p.distance ⟨0, 0, z⟩) := by
  have hb : (⟨1, 0, 0⟩ : Point ℝ).length = 1 := by simp [Point.length_eq, Point.along]
  have hc : (⟨0, 1, 0⟩ : Point ℝ).length = 1 := by simp [Point.length_eq, Point.along]
  unfold extent Point.distance
  rw [rightTriangle_real]
  simp only [Point.sub_def, sub_self, sub_zero, hb, hc, max_self]

theorem along_of_mem_rightTriangle {y z : ℝ} (hp : p ∈ (rightTriangle y).corners) :
    p.along .z = y ∧ p.distance ⟨0, 0, z⟩ ^ 2 ≤ 1 + (y - z) ^ 2 := by
  rw [rightTriangle_real] at hp
  simp only [corners, List.mem_cons, List.not_mem_nil, or_false] at hp
  rcases hp with rfl | rfl | rfl
  all_goals
    refine ⟨rfl, ?_⟩
    rw [Point.distance_sq]
    linarith

/-- Two triangles of this kind that are a hundredth apart keep away from each other's planes. -/
theorem far_rightTriangle {y z : ℝ} (hlow : 0.01 ≤ |y - z|) (hhigh : |y - z| ≤ 1) :
    ∀ p ∈ (rightTriangle y).corners, ∀ q, (rightTriangle z).Spans q →
      1e-9 * (1 + (rightTriangle z).extent p) < p.distance q := by
  rintro p hp q ⟨u, v, w, hsum, rfl⟩
  obtain ⟨hpz, hreach⟩ := along_of_mem_rightTriangle (z := z) hp
  have hqz : ((rightTriangle z).weighed u v w).along .z = z := by
    rw [rightTriangle_real]
    show z * u + z * v + z * w = z
    rw [← mul_add, ← mul_add, hsum, mul_one]
  have hextent : (rightTriangle z).extent p ≤ 2 := by
    rw [extent_rightTriangle, max_le_iff, Point.distance_le_iff zero_le_two]
    refine ⟨one_le_two, hreach.trans ?_⟩
    rw [← sq_abs]
    nlinarith [abs_nonneg (y - z)]
  have hway := Point.abs_along_sub_le p ((rightTriangle z).weighed u v w) .z
  rw [hqz, hpz, abs_sub_comm] at hway
  linarith

/-- A point just outside an edge and just above the plane, and a triangle a hundredth of a
millimetre above another one. -/
theorem contains_near_beyondEdge :
    let t : Triangle ℝ := rightTriangle 0
    let p : Point ℝ := ⟨0.5, 0.5000000005, 1.5e-9⟩
    t.contains p = true ∧
    (∃ u v w h, -1e-9 ≤ u ∧ -1e-9 ≤ v ∧ -1e-9 ≤ w ∧ u + v + w = 1 ∧
      |h| ≤ 1e-9 * (1 + t.extent p) ∧
      p = t.a.scale u + t.b.scale v + t.c.scale w + t.unitNormal.scale h) ∧
    t.overlaps (rightTriangle 0.01) = false := by
  intro t p
  obtain ⟨hnear, hfar⟩ := contains_near
  have hcontains : t.contains p = true := by
    have hextent : (1 : ℝ) ≤ t.extent p := by
      rw [extent_rightTriangle]
      exact le_max_left _ _
    have hheight : |t.height p| ≤ 1e-9 * (1 + t.extent p) := by
      have hp : t.height p = 1.5e-9 := by
        rw [height_rightTriangle, sub_zero]
      rw [hp, abs_of_nonneg (by norm_num)]
      linarith
    rw [contains_iff_covers, length_normal_rightTriangle, covers_rightTriangle_iff]
    exact ⟨by norm_num [tolerance_real], by norm_num [p], hheight⟩
  exact ⟨hcontains, (hnear t p hcontains).2, hfar _ _
    (far_rightTriangle (by norm_num) (by norm_num)) (far_rightTriangle (by norm_num) (by norm_num))⟩

end Triangle

end Machining
