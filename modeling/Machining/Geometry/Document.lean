import Machining.Document.Parts
import Machining.Geometry.Box

/-!
# Points and boxes in documents
-/

set_option autoImplicit false

namespace Machining

/-- A point as a record. -/
def Point.toNode (p : Point Float) : Node :=
  .record [("x", .real p.x), ("y", .real p.y), ("z", .real p.z)]

/-- The point a value stands for; all coordinates must be there. -/
def Point.ofNode? (k : Convention) (v : Node) : Option (Point Float) := do
  guard (v.isStructure k 3)
  let x ← v.required? 0 ["x"] Node.real?
  let y ← v.required? 1 ["y"] Node.real?
  let z ← v.required? 2 ["z"] Node.real?
  some ⟨x, y, z⟩

/-- A box as a record. -/
def Box.toNode (b : Box Float) : Node := .record [("min", b.min.toNode), ("max", b.max.toNode)]

/-- The box a value stands for. -/
def Box.ofNode? (k : Convention) (v : Node) : Option (Box Float) := do
  guard (v.isStructure k 2)
  let min ← v.required? 0 ["min"] (Point.ofNode? k)
  let max ← v.required? 1 ["max"] (Point.ofNode? k)
  some ⟨min, max⟩

end Machining
