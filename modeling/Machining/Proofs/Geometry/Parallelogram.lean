import Machining.Proofs.Geometry.Barycentric

/-!
# Parallelograms cut in two

A parallelogram is given by one corner and the two next to it; its points are named by their shares
of the two sides.  Cut along the diagonal from the first corner it falls into two triangles: in the
points of one the first share is the greater, in those of the other the second.  So the triangles
cover the parallelogram, and where its sides are not parallel they meet in the diagonal alone.

* `Point.spanned` — the point with the given shares of the two sides;
* `Point.spanned_inj` — the shares are known from the point, unless the sides are parallel;
* `Triangle.points_union`, `Triangle.points_inter` — the two halves of a parallelogram.
-/

set_option autoImplicit false

namespace Machining

/-- The points of a triangle: the means of its corners with weights that are not negative. -/
def Triangle.points (t : Triangle ℝ) : Set (Point ℝ) :=
  {p | ∃ u v w, 0 ≤ u ∧ 0 ≤ v ∧ 0 ≤ w ∧ u + v + w = 1 ∧ p = t.weighed u v w}

namespace Point

/-- The point of a parallelogram with corners `b` and `d` next to `a`, by its shares of the sides
from `a` to `b` and from `a` to `d`. -/
noncomputable def spanned (a b d : Point ℝ) (s t : ℝ) : Point ℝ :=
  a + ((b - a).scale s + (d - a).scale t)

variable {a b d : Point ℝ} {s t s' t' : ℝ}

theorem along_spanned (a b d : Point ℝ) (s t : ℝ) (i : Axis) : (spanned a b d s t).along i =
    a.along i + ((b.along i - a.along i) * s + (d.along i - a.along i) * t) := by
  cases i with
  | x => rfl
  | y => rfl
  | z => rfl

theorem along_scale (a : Point ℝ) (k : ℝ) (i : Axis) : (a.scale k).along i = a.along i * k := by
  cases i with
  | x => rfl
  | y => rfl
  | z => rfl

theorem scale_one (a : Point ℝ) : a.scale 1 = a := by
  refine ext_along fun i => ?_
  rw [along_scale, mul_one]

theorem cross_self (a : Point ℝ) : a.cross a = ⟨0, 0, 0⟩ := by
  simp only [cross, mk.injEq]
  refine ⟨by ring, by ring, by ring⟩

/-- The points with two equal shares are those of the diagonal. -/
theorem lerp_spanned (a b d : Point ℝ) (u : ℝ) :
    a.lerp (spanned a b d 1 1) u = spanned a b d u u := by
  simp only [lerp, spanned, add_def, sub_def, scale_def, mk.injEq]
  refine ⟨by ring, by ring, by ring⟩

/-- Shares are recovered by the vector product with the other side. -/
theorem spanned_sub_cross (a b d : Point ℝ) (s t : ℝ) :
    (spanned a b d s t - a).cross (d - a) = ((b - a).cross (d - a)).scale s ∧
      (b - a).cross (spanned a b d s t - a) = ((b - a).cross (d - a)).scale t := by
  simp only [spanned, cross, add_def, sub_def, scale_def, mk.injEq]
  exact ⟨⟨by ring, by ring, by ring⟩, by ring, by ring, by ring⟩

/-- Multiples of a vector that is not zero tell their factors. -/
theorem scale_inj {n : Point ℝ} (hn : n ≠ ⟨0, 0, 0⟩) (h : n.scale s = n.scale s') : s = s' := by
  by_contra hne
  simp only [scale_def, mk.injEq, mul_eq_mul_left_iff, hne, false_or] at h
  obtain ⟨hx, hy, hz⟩ := h
  apply hn
  show (⟨n.x, n.y, n.z⟩ : Point ℝ) = _
  rw [hx, hy, hz]

/-- **The shares are known from the point**, unless the sides are parallel. -/
theorem spanned_inj (hn : (b - a).cross (d - a) ≠ ⟨0, 0, 0⟩)
    (h : spanned a b d s t = spanned a b d s' t') : s = s' ∧ t = t' := by
  obtain ⟨hs, ht⟩ := spanned_sub_cross a b d s t
  obtain ⟨hs', ht'⟩ := spanned_sub_cross a b d s' t'
  rw [h] at hs ht
  exact ⟨scale_inj hn (hs.symm.trans hs'), scale_inj hn (ht.symm.trans ht')⟩

end Point

namespace Triangle

open Point

variable (a b d : Point ℝ) {p : Point ℝ}

/-- On this side of the diagonal the first share is the greater. -/
theorem mem_points_first : p ∈ points ⟨a, b, spanned a b d 1 1⟩ ↔
    ∃ s t, 0 ≤ t ∧ t ≤ s ∧ s ≤ 1 ∧ p = spanned a b d s t := by
  have hmean (v w : ℝ) : weighed ⟨a, b, spanned a b d 1 1⟩ (1 - v - w) v w =
      spanned a b d (v + w) w := by
    simp only [weighed, spanned, add_def, sub_def, scale_def, Point.mk.injEq]
    refine ⟨by ring, by ring, by ring⟩
  constructor
  · rintro ⟨u, v, w, hu, hv, hw, hsum, rfl⟩
    obtain rfl : u = 1 - v - w := by linarith
    exact ⟨v + w, w, hw, by linarith, by linarith, hmean v w⟩
  · rintro ⟨s, t, ht, hts, hs, rfl⟩
    refine ⟨1 - (s - t) - t, s - t, t, by linarith, by linarith, ht, by ring, ?_⟩
    rw [hmean, sub_add_cancel]

/-- On the other side the second share is the greater. -/
theorem mem_points_second : p ∈ points ⟨a, spanned a b d 1 1, d⟩ ↔
    ∃ s t, 0 ≤ s ∧ s ≤ t ∧ t ≤ 1 ∧ p = spanned a b d s t := by
  have hmean (v w : ℝ) : weighed ⟨a, spanned a b d 1 1, d⟩ (1 - v - w) v w =
      spanned a b d v (v + w) := by
    simp only [weighed, spanned, add_def, sub_def, scale_def, Point.mk.injEq]
    refine ⟨by ring, by ring, by ring⟩
  constructor
  · rintro ⟨u, v, w, hu, hv, hw, hsum, rfl⟩
    obtain rfl : u = 1 - v - w := by linarith
    exact ⟨v, v + w, hv, by linarith, by linarith, hmean v w⟩
  · rintro ⟨s, t, hs, hst, ht, rfl⟩
    refine ⟨1 - s - (t - s), s, t - s, by linarith, hs, by linarith, by ring, ?_⟩
    rw [hmean, add_sub_cancel]

/-- **The halves cover the parallelogram.** -/
theorem points_union : points ⟨a, b, spanned a b d 1 1⟩ ∪ points ⟨a, spanned a b d 1 1, d⟩ =
    {p | ∃ s t, (0 ≤ s ∧ s ≤ 1) ∧ (0 ≤ t ∧ t ≤ 1) ∧ p = spanned a b d s t} := by
  ext p
  rw [Set.mem_union, mem_points_first, mem_points_second]
  constructor
  · rintro (⟨s, t, ht, hts, hs, rfl⟩ | ⟨s, t, hs, hst, ht, rfl⟩)
    · exact ⟨s, t, ⟨ht.trans hts, hs⟩, ⟨ht, hts.trans hs⟩, rfl⟩
    · exact ⟨s, t, ⟨hs, hst.trans ht⟩, ⟨hs.trans hst, ht⟩, rfl⟩
  · rintro ⟨s, t, ⟨hs, hs'⟩, ⟨ht, ht'⟩, rfl⟩
    rcases le_total t s with hts | hst
    · exact Or.inl ⟨s, t, ht, hts, hs', rfl⟩
    · exact Or.inr ⟨s, t, hs, hst, ht', rfl⟩

variable {a b d}

/-- **The halves meet in the diagonal alone**, if the sides are not parallel. -/
theorem points_inter (hn : (b - a).cross (d - a) ≠ ⟨0, 0, 0⟩) :
    points ⟨a, b, spanned a b d 1 1⟩ ∩ points ⟨a, spanned a b d 1 1, d⟩ =
      {p | OnSegment a (spanned a b d 1 1) p} := by
  ext p
  rw [Set.mem_inter_iff, mem_points_first, mem_points_second]
  constructor
  · rintro ⟨⟨s, t, ht, hts, hs, rfl⟩, s', t', -, hst', -, h⟩
    -- the point has one pair of shares, so each of them is at most the other
    obtain ⟨rfl, rfl⟩ := spanned_inj hn h
    obtain rfl := le_antisymm hts hst'
    exact ⟨t, ht, hs, (lerp_spanned a b d t).symm⟩
  · rintro ⟨u, hu, hu', rfl⟩
    rw [lerp_spanned]
    exact ⟨⟨u, u, hu, le_rfl, hu', rfl⟩, u, u, hu, le_rfl, hu', rfl⟩

end Triangle

end Machining
