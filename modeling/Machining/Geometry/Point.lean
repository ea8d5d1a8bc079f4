import Machining.Scalar

/-!
# Points

A point of the work space, in millimetres, doubles as the vector to it.  Sums run from the first
coordinate to the last: `Point.dot` is `(x + y) + z`.  Two interpolations are kept apart, because
rounding tells them apart: `Point.lerp` advances from the start, `Point.blend` weighs both ends.
-/

set_option autoImplicit false

namespace Machining

/-- A point, or the vector from the origin to it. -/
structure Point (α : Type) where
  x : α
  y : α
  z : α
  deriving Repr, BEq, DecidableEq, Inhabited

namespace Point

variable {α : Type}

/-- Apply a function to each coordinate. -/
def map {β : Type} (f : α → β) (p : Point α) : Point β := ⟨f p.x, f p.y, f p.z⟩

/-- The three coordinates in order. -/
def toList (p : Point α) : List α := [p.x, p.y, p.z]

variable [Scalar α]

/-- The origin. -/
def origin : Point α := ⟨0, 0, 0⟩

instance : Add (Point α) := ⟨fun a b => ⟨a.x + b.x, a.y + b.y, a.z + b.z⟩⟩

instance : Sub (Point α) := ⟨fun a b => ⟨a.x - b.x, a.y - b.y, a.z - b.z⟩⟩

/-- The vector `k` times as long. -/
@[inline] def scale (p : Point α) (k : α) : Point α := ⟨p.x * k, p.y * k, p.z * k⟩

/-- The scalar product. -/
@[inline] def dot (a b : Point α) : α := a.x * b.x + a.y * b.y + a.z * b.z

/-- The vector product. -/
@[inline] def cross (a b : Point α) : Point α :=
  ⟨a.y * b.z - b.y * a.z, a.z * b.x - b.z * a.x, a.x * b.y - b.x * a.y⟩

/-- Euclidean length. -/
@[inline] def length (p : Point α) : α := Scalar.sqrt (p.dot p)

/-- Euclidean distance. -/
@[inline] def distance (a b : Point α) : α := (a - b).length

/-- The point a share `u` of the way from `a` to `b`. -/
@[inline] def lerp (a b : Point α) (u : α) : Point α :=
  ⟨a.x + (b.x - a.x) * u, a.y + (b.y - a.y) * u, a.z + (b.z - a.z) * u⟩

/-- The ends weighed `1 - u` and `u`. -/
@[inline] def blend (a b : Point α) (u : α) : Point α := a.scale (1 - u) + b.scale u

/-- The coordinates without their signs. -/
def magnitude (p : Point α) : Point α := p.map Scalar.magnitude

end Point

end Machining
