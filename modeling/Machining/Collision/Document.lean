import Machining.Collision.Event
import Machining.Geometry.Document
import Machining.Json.Writing

/-!
# Events in documents
-/

set_option autoImplicit false

namespace Machining.Event

/-- An event as a record. -/
def toNode (e : Event Float) : Node :=
  .record [("kind", .text e.kind.name), ("t", .real e.time), ("line_number", .ofCount e.line),
    ("block_index", .ofCount e.block), ("point", e.point.toNode), ("mover", .text e.mover),
    ("obstacle", .text e.obstacle)]

/-- The JSON text of a list of events. -/
def toJson (es : List (Event Float)) : String := Json.write (.list (es.map toNode))

end Machining.Event
