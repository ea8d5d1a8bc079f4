import Machining.Geometry.Document
import Machining.Json.Reading
import Machining.Json.Writing
import Machining.Modal.Interpretation

/-!
# Interpretations in documents

Modal states, commands and diagnostics as records, and back.  A command carries its kind in the
field `type`, or as the first item where it is written as a list.
-/

set_option autoImplicit false

namespace Machining

/-- The units a name can stand for. -/
def LengthUnit.all : List LengthUnit := [millimetre, inch]

/-- The distance modes a name can stand for. -/
def DistanceMode.all : List DistanceMode := [absolute, incremental]

/-- The planes a name can stand for. -/
def Plane.all : List Plane := [xy, xz, yz]

/-- The feed modes a name can stand for. -/
def FeedMode.all : List FeedMode := [unitsPerMinute]

/-- The motion modes a name can stand for. -/
def MotionMode.all : List MotionMode := [rapid, linear, clockwiseArc, counterclockwiseArc]

/-- The spindle modes a name can stand for. -/
def SpindleMode.all : List SpindleMode := [clockwise, counterclockwise, off]

/-- The severities a name can stand for. -/
def Severity.all : List Severity := [error, warning]

/-- A unit by its name. -/
def LengthUnit.ofNode? (k : Convention) : Node → Option LengthUnit :=
  Node.choice? k all name

/-- A distance mode by its name. -/
def DistanceMode.ofNode? (k : Convention) : Node → Option DistanceMode :=
  Node.choice? k all name

/-- A plane by its name. -/
def Plane.ofNode? (k : Convention) : Node → Option Plane :=
  Node.choice? k all name

/-- A feed mode by its name. -/
def FeedMode.ofNode? (k : Convention) : Node → Option FeedMode :=
  Node.choice? k all name

/-- A motion mode by its name. -/
def MotionMode.ofNode? (k : Convention) : Node → Option MotionMode :=
  Node.choice? k all name

/-- A spindle mode by its name. -/
def SpindleMode.ofNode? (k : Convention) : Node → Option SpindleMode :=
  Node.choice? k all name

/-- A severity by its name. -/
def Severity.ofNode? (k : Convention) : Node → Option Severity :=
  Node.choice? k all name

/-- A modal state as a record. -/
def ModalState.toNode (s : ModalState Float) : Node :=
  .record [("units", .text s.unit.name), ("distance_mode", .text s.distanceMode.name),
    ("plane", .text s.plane.name), ("feed_mode", .text s.feedMode.name),
    ("motion_mode", .text s.motionMode.name), ("feed", .real s.feed),
    ("spindle_mode", .text s.spindleMode.name), ("spindle_rpm", .real s.spindleSpeed),
    ("work_offset", .text s.workOffset), ("tool_number", .ofCount s.tool),
    ("position", s.position.toNode)]

/-- The greatest tool number. -/
def largestTool : Nat := UInt32.size - 1

/-- The modal state a value stands for. -/
def ModalState.ofNode? (k : Convention) (v : Node) : Option (ModalState Float) := do
  guard (v.isStructure k 11)
  let unit ← v.required? 0 ["units"] (LengthUnit.ofNode? k)
  let distanceMode ← v.required? 1 ["distance_mode"] (DistanceMode.ofNode? k)
  let plane ← v.required? 2 ["plane"] (Plane.ofNode? k)
  let feedMode ← v.required? 3 ["feed_mode"] (FeedMode.ofNode? k)
  let motionMode ← v.required? 4 ["motion_mode"] (MotionMode.ofNode? k)
  let feed ← v.required? 5 ["feed"] Node.real?
  let spindleMode ← v.required? 6 ["spindle_mode"] (SpindleMode.ofNode? k)
  let spindleSpeed ← v.required? 7 ["spindle_rpm"] Node.real?
  let workOffset ← v.required? 8 ["work_offset"] Node.text?
  let tool ← v.required? 9 ["tool_number"] (Node.count? largestTool)
  let position ← v.required? 10 ["position"] (Point.ofNode? k)
  some ⟨unit, distanceMode, plane, feedMode, motionMode, feed, spindleMode, spindleSpeed,
    workOffset, tool, position⟩

/-- The parts of a move, in order. -/
def Motion.fields (m : Motion Float) : List (String × Node) :=
  [("mode", .text m.mode.name), ("plane", .text m.plane.name), ("from", m.start.toNode),
    ("to", m.target.toNode), ("arc_offset", .ofOption Point.toNode m.arcOffset),
    ("feed", .real m.feed), ("spindle_rpm", .real m.spindleSpeed),
    ("spindle_mode", .text m.spindleMode.name), ("work_offset", .text m.workOffset),
    ("block_index", .ofCount m.block), ("line_number", .ofCount m.line)]

/-- The move a value stands for. -/
def Motion.ofNode? (k : Convention) (v : Node) : Option (Motion Float) := do
  guard (v.isStructure k 11)
  let mode ← v.required? 0 ["mode"] (MotionMode.ofNode? k)
  let plane ← v.required? 1 ["plane"] (Plane.ofNode? k)
  let start ← v.required? 2 ["from"] (Point.ofNode? k)
  let target ← v.required? 3 ["to"] (Point.ofNode? k)
  let arcOffset ← v.defaulted? 4 ["arc_offset"] none (Node.nullable? (Point.ofNode? k))
  let feed ← v.required? 5 ["feed"] Node.real?
  let spindleSpeed ← v.required? 6 ["spindle_rpm"] Node.real?
  let spindleMode ← v.required? 7 ["spindle_mode"] (SpindleMode.ofNode? k)
  let workOffset ← v.required? 8 ["work_offset"] Node.text?
  let block ← v.required? 9 ["block_index"] (Node.count? Node.largestCount)
  let line ← v.required? 10 ["line_number"] (Node.count? Node.largestCount)
  some ⟨mode, plane, start, target, arcOffset, feed, spindleSpeed, spindleMode, workOffset,
    block, line⟩

namespace Command

/-- The name of the field that holds the kind of a command. -/
def kindField : String := "type"

/-- A command as a record. -/
def toNode : Command Float → Node
  | motion m => .record ((kindField, .text "motion") :: m.fields)
  | toolChange tool block line =>
    .record [(kindField, .text "tool_change"), ("tool", .ofCount tool),
      ("block_index", .ofCount block), ("line_number", .ofCount line)]
  | snapshot state block line =>
    .record [(kindField, .text "modal_snapshot"), ("state", state.toNode),
      ("block_index", .ofCount block), ("line_number", .ofCount line)]

/-- The tool change a value stands for. -/
def toolChangeOfNode? (k : Convention) (v : Node) : Option (Command Float) := do
  guard (v.isStructure k 3)
  let tool ← v.required? 0 ["tool"] (Node.count? largestTool)
  let block ← v.required? 1 ["block_index"] (Node.count? Node.largestCount)
  let line ← v.required? 2 ["line_number"] (Node.count? Node.largestCount)
  some (.toolChange tool block line)

/-- The snapshot a value stands for. -/
def snapshotOfNode? (k : Convention) (v : Node) : Option (Command Float) := do
  guard (v.isStructure k 3)
  let state ← v.required? 0 ["state"] (ModalState.ofNode? k)
  let block ← v.required? 1 ["block_index"] (Node.count? Node.largestCount)
  let line ← v.required? 2 ["line_number"] (Node.count? Node.largestCount)
  some (.snapshot state block line)

/-- The kind of a command and its parts without the kind. -/
def splitKind? : Node → Option (String × Node)
  | .record fields =>
    match fields.filter fun f => f.1 == kindField with
    | [(_, .text kind)] => some (kind, .record (fields.filter fun f => f.1 != kindField))
    | _ => none
  | .list (.text kind :: items) => some (kind, .list items)
  | _ => none

/-- Within a command an empty record is as good as no value beside the name of a choice. -/
def convention : Convention := ⟨false, fun v => v.isNull || v.isEmptyRecord⟩

/-- The command a value stands for; no part of it may be beyond what can be held. -/
def ofNode? (v : Node) : Option (Command Float) := do
  guard v.isReadable
  let (kind, v) ← splitKind? v
  match kind with
  | "motion" => (Motion.ofNode? convention v).map .motion
  | "tool_change" => toolChangeOfNode? convention v
  | "modal_snapshot" => snapshotOfNode? convention v
  | _ => none

end Command

/-- A diagnostic as a record. -/
def Diagnostic.toNode (d : Diagnostic) : Node :=
  .record [("block_index", .ofCount d.block), ("line_number", .ofCount d.line),
    ("severity", .text d.severity.name), ("message", .text d.message)]

/-- The diagnostic a value stands for. -/
def Diagnostic.ofNode? (k : Convention) (v : Node) : Option Diagnostic := do
  guard (v.isStructure k 4)
  let block ← v.required? 0 ["block_index"] (Node.count? Node.largestCount)
  let line ← v.required? 1 ["line_number"] (Node.count? Node.largestCount)
  let severity ← v.required? 2 ["severity"] (Severity.ofNode? k)
  let message ← v.required? 3 ["message"] Node.text?
  some { block, line, severity, message }

namespace Interpretation

/-- An interpretation as a record. -/
def toNode (i : Interpretation Float) : Node :=
  .record [("commands", .list (i.commands.map Command.toNode)),
    ("diagnostics", .list (i.diagnostics.map Diagnostic.toNode)),
    ("final_state", i.finalState.toNode)]

/-- The interpretation a value stands for. -/
def ofNode? (v : Node) : Option (Interpretation Float) := do
  guard (v.isStructure Json.convention 3)
  let commands ← v.required? 0 ["commands"] (Node.listOf? Command.ofNode?)
  let diagnostics ←
    v.required? 1 ["diagnostics"] (Node.listOf? (Diagnostic.ofNode? Json.convention))
  let finalState ← v.required? 2 ["final_state"] (ModalState.ofNode? Json.convention)
  some { commands, diagnostics, finalState }

/-- The JSON text of an interpretation. -/
def toJson (i : Interpretation Float) : String := Json.write i.toNode

/-- The interpretation a JSON text describes. -/
def ofJson? (text : String) : Option (Interpretation Float) := (Json.read? text).bind ofNode?

end Interpretation

end Machining
