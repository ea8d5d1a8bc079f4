import Machining.Geometry.Point

/-!
# Axis-aligned boxes

A box is closed: its faces belong to it.  `Box.touches p r` asks whether the cube of half width
`r` around `p` meets the box, and `Box.contains` is the case of a bare point.
-/

set_option autoImplicit false

namespace Machining

/-- The points between the corner with the least coordinates and the one with the greatest, faces
included. -/
structure Box (α : Type) where
  min : Point α
  max : Point α
  deriving Repr, BEq, DecidableEq, Inhabited

namespace Box

variable {α : Type} [Scalar α]

/-- The cube of half width `r` around `p` meets the box. -/
def touches (b : Box α) (p : Point α) (r : α) : Bool :=
  decide (b.min.x ≤ p.x + r) && decide (p.x - r ≤ b.max.x) &&
  decide (b.min.y ≤ p.y + r) && decide (p.y - r ≤ b.max.y) &&
  decide (b.min.z ≤ p.z + r) && decide (p.z - r ≤ b.max.z)

/-- The box holds the point. -/
def contains (b : Box α) (p : Point α) : Bool := b.touches p 0

/-- No side of the box is inverted. -/
def isValid (b : Box α) : Bool :=
  decide (b.min.x ≤ b.max.x) && decide (b.min.y ≤ b.max.y) && decide (b.min.z ≤ b.max.z)

end Box

end Machining
