import Machining.Geometry.Document
import Machining.Json.Reading
import Machining.Json.Writing
import Machining.Machine.Descriptor
import Machining.Scalar.Double
import Machining.Toml.Reading

/-!
# Machine descriptors in documents

A descriptor is read from a record in which every part has a default.  The limits of an axis have
defaults one by one; the tool centre, the stock, the tool and the fixtures must be complete where
they are given.  Most names have two spellings.
-/

set_option autoImplicit false

namespace Machining

/-- The limits of an axis as a record. -/
def AxisLimits.toNode (l : AxisLimits Float) : Node :=
  .record [("min", .real l.min), ("max", .real l.max), ("max_velocity", .real l.maxVelocity),
    ("max_accel", .real l.maxAcceleration)]

/-- The limits of an axis a value stands for. -/
def AxisLimits.ofNode? (k : Convention) (v : Node) : Option (AxisLimits Float) := do
  guard (v.isStructure k 4)
  let d : AxisLimits Float := .default
  let min ← v.defaulted? 0 ["min"] d.min Node.real?
  let max ← v.defaulted? 1 ["max"] d.max Node.real?
  let maxVelocity ← v.defaulted? 2 ["max_velocity", "maxVelocity"] d.maxVelocity Node.real?
  let maxAcceleration ← v.defaulted? 3 ["max_accel", "maxAccel"] d.maxAcceleration Node.real?
  some { min, max, maxVelocity, maxAcceleration }

/-- The axes as a record. -/
def Axes.toNode (a : Axes Float) : Node :=
  .record [("X", a.x.toNode), ("Y", a.y.toNode), ("Z", a.z.toNode)]

/-- The axes a value stands for. -/
def Axes.ofNode? (k : Convention) (v : Node) : Option (Axes Float) := do
  guard (v.isStructure k 3)
  let x ← v.defaulted? 0 ["X", "x"] .default (AxisLimits.ofNode? k)
  let y ← v.defaulted? 1 ["Y", "y"] .default (AxisLimits.ofNode? k)
  let z ← v.defaulted? 2 ["Z", "z"] .default (AxisLimits.ofNode? k)
  some { x, y, z }

/-- A stock size as a record. -/
def StockSize.toNode (s : StockSize Float) : Node :=
  .record [("width", .real s.width), ("height", .real s.height), ("depth", .real s.depth),
    ("voxel_size", .real s.cell)]

/-- The stock size a value stands for. -/
def StockSize.ofNode? (k : Convention) (v : Node) : Option (StockSize Float) := do
  guard (v.isStructure k 4)
  let width ← v.required? 0 ["width"] Node.real?
  let height ← v.required? 1 ["height"] Node.real?
  let depth ← v.required? 2 ["depth"] Node.real?
  let cell ← v.required? 3 ["voxel_size", "voxelSize"] Node.real?
  some { width, height, depth, cell }

/-- A tool as a record. -/
def Tool.toNode (t : Tool Float) : Node := .record [("diameter", .real t.diameter)]

/-- The tool a value stands for. -/
def Tool.ofNode? (k : Convention) (v : Node) : Option (Tool Float) := do
  guard (v.isStructure k 1)
  let diameter ← v.required? 0 ["diameter"] Node.real?
  some { diameter }

/-- A fixture as a record. -/
def Fixture.toNode (f : Fixture Float) : Node :=
  .record [("name", .text f.name), ("aabb", f.box.toNode)]

/-- The fixture a value stands for. -/
def Fixture.ofNode? (k : Convention) (v : Node) : Option (Fixture Float) := do
  guard (v.isStructure k 2)
  let name ← v.required? 0 ["name"] Node.text?
  let box ← v.required? 1 ["aabb"] (Box.ofNode? k)
  some { name, box }

/-- A table of work offsets as a record. -/
def OffsetTable.toNode (t : OffsetTable Float) : Node :=
  .record (t.entries.map fun e => (e.1, e.2.toNode))

/-- The table of work offsets a value stands for; of equal names the last one counts. -/
def OffsetTable.ofNode? (k : Convention) : Node → Option (OffsetTable Float)
  | .record fields =>
    (fields.mapM fun f => (Point.ofNode? k f.2).map fun p => (f.1, p)).map OffsetTable.ofList
  | _ => none

namespace Machine

/-- A machine as a record. -/
def toNode (m : Machine Float) : Node :=
  .record [("name", .text m.name), ("axes", m.axes.toNode), ("tcp", m.toolCentre.toNode),
    ("stock", m.stock.toNode), ("tool", m.tool.toNode),
    ("work_offsets", m.workOffsets.toNode),
    ("fixtures", .list (m.fixtures.map Fixture.toNode))]

/-- The machine a value stands for. -/
def ofNode? (k : Convention) (v : Node) : Option (Machine Float) := do
  guard (v.isStructure k 7)
  let d : Machine Float := .default
  let name ← v.defaulted? 0 ["name"] d.name Node.text?
  let axes ← v.defaulted? 1 ["axes"] d.axes (Axes.ofNode? k)
  let toolCentre ← v.defaulted? 2 ["tcp"] d.toolCentre (Point.ofNode? k)
  let stock ← v.defaulted? 3 ["stock"] d.stock (StockSize.ofNode? k)
  let tool ← v.defaulted? 4 ["tool"] d.tool (Tool.ofNode? k)
  let workOffsets ←
    v.defaulted? 5 ["work_offsets", "workOffsets"] d.workOffsets (OffsetTable.ofNode? k)
  let fixtures ← v.defaulted? 6 ["fixtures"] d.fixtures (Node.listOf? (Fixture.ofNode? k))
  some { name, axes, toolCentre, stock, tool, workOffsets, fixtures }

/-- The machine a JSON text describes. -/
def ofJson? (text : String) : Option (Machine Float) :=
  (Json.read? text).bind (ofNode? Json.convention)

/-- The machine a TOML text describes. -/
def ofToml? (text : String) : Option (Machine Float) :=
  (Toml.read? text).bind (ofNode? Toml.convention)

/-- The JSON text of a machine. -/
def toJson (m : Machine Float) : String := Json.write m.toNode

end Machine

end Machining
