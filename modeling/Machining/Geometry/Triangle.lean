import Machining.Geometry.Point

/-!
# Triangles

Whether a point lies on a triangle, within a tolerance, and whether two triangles overlap in the
sense that a vertex of one lies on the other.  Crossings of edges alone are not found.
-/

set_option autoImplicit false

namespace Machining

/-- Three corners. -/
structure Triangle (α : Type) where
  a : Point α
  b : Point α
  c : Point α
  deriving Repr, BEq, DecidableEq, Inhabited

namespace Triangle

variable {α : Type}

/-- The corners in order. -/
def corners (t : Triangle α) : List (Point α) := [t.a, t.b, t.c]

variable [Scalar α]

/-- What counts as zero for areas, determinants and barycentric coordinates. -/
def tolerance : α := 1e-9

/-- The barycentric coordinates of `p` along `c - a` and `b - a`, unless the triangle's Gram
determinant vanishes: the weights of `c` and of `b`. -/
def weights? (t : Triangle α) (p : Point α) : Option (α × α) :=
  let v0 := t.c - t.a
  let v1 := t.b - t.a
  let v2 := p - t.a
  let d00 := v0.dot v0
  let d01 := v0.dot v1
  let d11 := v1.dot v1
  let d20 := v2.dot v0
  let d21 := v2.dot v1
  let denom := d00 * d11 - d01 * d01
  if Scalar.magnitude denom < tolerance then none
  else some ((d11 * d20 - d01 * d21) / denom, (d00 * d21 - d01 * d20) / denom)

/-- `p` lies on the triangle: the triangle has an area, `p` is on its plane within the tolerance
scaled by the extent of triangle and point, and no barycentric coordinate is below minus the
tolerance. -/
def contains (t : Triangle α) (p : Point α) : Bool :=
  let v0 := t.c - t.a
  let v1 := t.b - t.a
  let v2 := p - t.a
  let normal := v1.cross v0
  let area := normal.length
  if area < tolerance then false else
  let extent := Scalar.greater (Scalar.greater v0.length v1.length) v2.length
  if tolerance * (1 + extent) < Scalar.magnitude (normal.dot v2 / area) then false else
  match t.weights? p with
  | none => false
  | some (v, w) =>
    let u := 1 - v - w
    decide (-tolerance ≤ u) && decide (-tolerance ≤ v) && decide (-tolerance ≤ w)

/-- A corner of one triangle lies on the other. -/
def overlaps (s t : Triangle α) : Bool := s.corners.any t.contains || t.corners.any s.contains

end Triangle

end Machining
