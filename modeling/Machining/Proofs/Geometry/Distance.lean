import Machining.Machine.Descriptor
import Machining.Proofs.Exact

/-!
# Distances

Points with real coordinates, seen along the three axes and by their distances.  A point of a
segment is given by its share of the way, and the square of its distance from any other point is a
quadratic polynomial in that share, which the distances from the two ends determine.

* `Box.isValid_iff_along`, `Box.touches_iff_along` — boxes seen along the axes;
* `Point.abs_along_sub_le` — along an axis two points are no further apart than in space;
* `Point.distance_lerp_sq` — the distance from a point of a segment, by those from its ends;
* `Point.OnSegment` — the points of a segment.
-/

set_option autoImplicit false

namespace Machining

/-! ## Coordinates -/

/-- The coordinate of a point along an axis. -/
def Point.along {α : Type} (p : Point α) : Axis → α
  | .x => p.x
  | .y => p.y
  | .z => p.z

theorem Axis.exists_iff {P : Axis → Prop} : (∃ i, P i) ↔ P .x ∨ P .y ∨ P .z := by
  constructor
  · rintro ⟨i, h⟩
    cases i with
    | x => exact .inl h
    | y => exact .inr (.inl h)
    | z => exact .inr (.inr h)
  · rintro (h | h | h)
    · exact ⟨_, h⟩
    · exact ⟨_, h⟩
    · exact ⟨_, h⟩

theorem Axis.forall_iff {P : Axis → Prop} : (∀ i, P i) ↔ P .x ∧ P .y ∧ P .z := by
  constructor
  · intro h
    exact ⟨h .x, h .y, h .z⟩
  · rintro ⟨hx, hy, hz⟩ i
    cases i with
    | x => exact hx
    | y => exact hy
    | z => exact hz

section Boxes

variable {α : Type}

/-- The envelope spans the travel of each axis. -/
theorem Machine.along_envelope (m : Machine α) (i : Axis) :
    m.envelope.min.along i = (m.axes.limits i).min ∧
      m.envelope.max.along i = (m.axes.limits i).max := by
  cases i with
  | x => exact ⟨rfl, rfl⟩
  | y => exact ⟨rfl, rfl⟩
  | z => exact ⟨rfl, rfl⟩

variable [Scalar α] {b : Box α} {p : Point α} {r : α}

theorem Box.isValid_iff_along : b.isValid = true ↔ ∀ i, b.min.along i ≤ b.max.along i := by
  rw [Axis.forall_iff]
  simp only [isValid, Bool.and_eq_true, decide_eq_true_eq, and_assoc]
  rfl

theorem Box.touches_iff_along : b.touches p r = true ↔
    ∀ i, b.min.along i ≤ p.along i + r ∧ p.along i - r ≤ b.max.along i := by
  rw [Axis.forall_iff]
  simp only [touches, Bool.and_eq_true, decide_eq_true_eq, and_assoc]
  rfl

end Boxes

namespace Point

theorem ext_along {α : Type} {p q : Point α} (h : ∀ i, p.along i = q.along i) : p = q := by
  obtain ⟨x, y, z⟩ := p
  obtain ⟨x', y', z'⟩ := q
  obtain rfl : x = x' := h .x
  obtain rfl : y = y' := h .y
  obtain rfl : z = z' := h .z
  rfl

variable (a b : Point ℝ)

theorem length_eq : a.length = √(a.along .x ^ 2 + a.along .y ^ 2 + a.along .z ^ 2) := by
  show √(a.x * a.x + a.y * a.y + a.z * a.z) = √(a.x ^ 2 + a.y ^ 2 + a.z ^ 2)
  simp only [pow_two]

theorem along_sub (i : Axis) : (a - b).along i = a.along i - b.along i := by
  cases i with
  | x => rfl
  | y => rfl
  | z => rfl

theorem along_magnitude (i : Axis) : a.magnitude.along i = |a.along i| := by
  cases i with
  | x => exact Scalar.magnitude_real _
  | y => exact Scalar.magnitude_real _
  | z => exact Scalar.magnitude_real _

/-- Lengths do not depend on signs. -/
theorem length_magnitude_sub : (b - a).magnitude.length = a.distance b := by
  show (b - a).magnitude.length = (a - b).length
  simp only [length_eq, along_magnitude, along_sub, sq_abs]
  congr 1
  ring

theorem abs_along_sub_le (i : Axis) : |b.along i - a.along i| ≤ a.distance b := by
  rw [← along_sub, ← along_magnitude, ← length_magnitude_sub, length_eq]
  -- each square is one of three summands, none of them negative
  apply Real.le_sqrt_of_sq_le
  have hx := sq_nonneg ((b - a).magnitude.along .x)
  have hy := sq_nonneg ((b - a).magnitude.along .y)
  have hz := sq_nonneg ((b - a).magnitude.along .z)
  cases i with
  | x => linarith
  | y => linarith
  | z => linarith

/-- A point apart from another differs from it along some axis. -/
theorem exists_along_ne (h : 0 < a.distance b) : ∃ i, 0 < |b.along i - a.along i| := by
  by_contra hnone
  rw [not_exists] at hnone
  have hzero (i : Axis) : a.along i - b.along i = 0 := by
    rw [← neg_sub, neg_eq_zero]
    exact abs_nonpos_iff.1 (not_lt.1 (hnone i))
  have hlength : a.distance b = 0 := by
    show (a - b).length = 0
    simp [length_eq, along_sub, hzero]
  exact h.ne' hlength

theorem distance_nonneg : 0 ≤ a.distance b := Real.sqrt_nonneg _

theorem distance_sq : a.distance b ^ 2 = (a.x - b.x) ^ 2 + (a.y - b.y) ^ 2 + (a.z - b.z) ^ 2 := by
  have hdot : (a - b).dot (a - b) = (a.x - b.x) ^ 2 + (a.y - b.y) ^ 2 + (a.z - b.z) ^ 2 := by
    show (a.x - b.x) * (a.x - b.x) + (a.y - b.y) * (a.y - b.y) + (a.z - b.z) * (a.z - b.z) = _
    ring
  show √((a - b).dot (a - b)) ^ 2 = _
  rw [hdot, Real.sq_sqrt (by positivity)]

theorem distance_comm : a.distance b = b.distance a := by
  have hsq : a.distance b ^ 2 = b.distance a ^ 2 := by
    rw [distance_sq, distance_sq]
    ring
  exact (sq_eq_sq₀ (distance_nonneg a b) (distance_nonneg b a)).1 hsq

theorem distance_self : a.distance a = 0 := by
  rw [← sq_eq_zero_iff, distance_sq]
  ring

variable {a b}

theorem distance_le_iff {r : ℝ} (hr : 0 ≤ r) : a.distance b ≤ r ↔ a.distance b ^ 2 ≤ r ^ 2 :=
  (sq_le_sq₀ (distance_nonneg a b) hr).symm

end Point

/-! ## Segments -/

namespace Point

/-- With exact arithmetic both interpolations are one. -/
theorem blend_eq_lerp (a b : Point ℝ) (u : ℝ) : a.blend b u = a.lerp b u := by
  have hmix (x y : ℝ) : x * (@OfNat.ofNat ℝ 1 (Scalar.instOfNat 1) - u) + y * u =
      x + (y - x) * u := by
    rw [Scalar.one_real]
    ring
  show (⟨_, _, _⟩ : Point ℝ) = ⟨_, _, _⟩
  congr 1
  · exact hmix a.x b.x
  · exact hmix a.y b.y
  · exact hmix a.z b.z

theorem lerp_zero (a b : Point ℝ) : a.lerp b 0 = a := by
  simp [lerp]

theorem lerp_one (a b : Point ℝ) : a.lerp b 1 = b := by
  simp [lerp]

/-- A point between two points of a segment is a point of the segment. -/
theorem lerp_lerp (a b : Point ℝ) (s t u : ℝ) :
    (a.lerp b s).lerp (a.lerp b t) u = a.lerp b (s + (t - s) * u) := by
  simp only [lerp, mk.injEq]
  refine ⟨by ring, by ring, by ring⟩

/-- The way between two points of a segment is their share of the whole way. -/
theorem distance_lerp_lerp (a b : Point ℝ) (s t : ℝ) :
    (a.lerp b s).distance (a.lerp b t) = |t - s| * a.distance b := by
  have hsq : (a.lerp b s).distance (a.lerp b t) ^ 2 = (|t - s| * a.distance b) ^ 2 := by
    simp only [mul_pow, sq_abs, distance_sq, lerp]
    ring
  have hway : 0 ≤ |t - s| * a.distance b := mul_nonneg (abs_nonneg _) (distance_nonneg _ _)
  exact (sq_eq_sq₀ (distance_nonneg _ _) hway).1 hsq

/-- Even shares of the way are equally long. -/
theorem distance_share_succ (a b : Point ℝ) (n k : ℕ) :
    (a.lerp b (k / n)).distance (a.lerp b ((k + 1 : ℕ) / n)) = a.distance b / n := by
  have hshare : ((k + 1 : ℕ) / n - k / n : ℝ) = 1 / n := by
    rw [Nat.cast_succ, ← sub_div, add_sub_cancel_left]
  rw [distance_lerp_lerp, hshare, abs_of_nonneg (by positivity), one_div_mul_eq_div]

/-- **The distance from a point of a segment**: its square is the mean of those from the ends, less
what the segment itself adds. -/
theorem distance_lerp_sq (c a b : Point ℝ) (u : ℝ) : c.distance (a.lerp b u) ^ 2 =
    (1 - u) * c.distance a ^ 2 + u * c.distance b ^ 2 - u * (1 - u) * a.distance b ^ 2 := by
  simp only [distance_sq, lerp]
  ring

/-- The point lies between the two ends. -/
def OnSegment (a b q : Point ℝ) : Prop := ∃ u, 0 ≤ u ∧ u ≤ 1 ∧ q = a.lerp b u

end Point

end Machining
