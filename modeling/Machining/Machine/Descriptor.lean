import Machining.Geometry.Box
import Machining.Machine.OffsetTable
import Machining.Modal.State

/-!
# Machine descriptors

A machine has three linear axes, an offset from its reference point to the tool centre, a block of
stock, a tool, named work offsets and fixtures.  Every part has a default, so that a partly
described machine can still be simulated.
-/

set_option autoImplicit false

namespace Machining

/-- The linear axes. -/
inductive Axis
  | x
  | y
  | z
  deriving Repr, DecidableEq, Inhabited

/-- The name of an axis. -/
def Axis.name : Axis → String
  | x => "X"
  | y => "Y"
  | z => "Z"

/-- The axes in order. -/
def Axis.all : List Axis := [x, y, z]

/-- Travel and dynamics of one axis, in millimetres and seconds; planning leaves the acceleration
aside. -/
structure AxisLimits (α : Type) where
  min : α
  max : α
  maxVelocity : α
  maxAcceleration : α
  deriving Repr, BEq, DecidableEq, Inhabited

/-- The limits of the three axes. -/
structure Axes (α : Type) where
  x : AxisLimits α
  y : AxisLimits α
  z : AxisLimits α
  deriving Repr, BEq, DecidableEq, Inhabited

/-- The extents of the stock block along X, Y and Z and the edge of one cell of its model, in
millimetres. -/
structure StockSize (α : Type) where
  width : α
  height : α
  depth : α
  cell : α
  deriving Repr, BEq, DecidableEq, Inhabited

/-- The cutting tool, with its diameter in millimetres. -/
structure Tool (α : Type) where
  diameter : α
  deriving Repr, BEq, DecidableEq, Inhabited

/-- An obstacle clamped to the table, and the space it takes up. -/
structure Fixture (α : Type) where
  name : String
  box : Box α
  deriving Repr, BEq, DecidableEq, Inhabited

/-- A machine with three axes; `toolCentre` is the offset from the spindle reference point to the
tool centre point. -/
structure Machine (α : Type) where
  name : String
  axes : Axes α
  toolCentre : Point α
  stock : StockSize α
  tool : Tool α
  workOffsets : OffsetTable α
  fixtures : List (Fixture α)

/-- The limits of one axis. -/
def Axes.limits {α : Type} (a : Axes α) : Axis → AxisLimits α
  | .x => a.x
  | .y => a.y
  | .z => a.z

variable {α : Type} [Scalar α]

/-- The limits of an axis that is not described. -/
def AxisLimits.default : AxisLimits α := ⟨-500, 500, 500, 3000⟩

/-- Three axes that are not described. -/
def Axes.default : Axes α := ⟨.default, .default, .default⟩

/-- The least of the velocity limits, at which the machine traverses. -/
def Axes.traverseVelocity (a : Axes α) : α :=
  Scalar.lesser (Scalar.lesser a.x.maxVelocity a.y.maxVelocity) a.z.maxVelocity

/-- The stock that is not described. -/
def StockSize.default : StockSize α := ⟨100, 100, 20, 1⟩

/-- The tool that is not described. -/
def Tool.default : Tool α := ⟨10⟩

/-- Half the diameter. -/
def Tool.radius (t : Tool α) : α := t.diameter / 2

namespace Machine

/-- The work offsets that are not described: the one in force at power-on, at the origin. -/
def defaultWorkOffsets : OffsetTable α := OffsetTable.empty.insert defaultWorkOffset Point.origin

/-- A machine of which nothing is described. -/
def default : Machine α where
  name := ""
  axes := .default
  toolCentre := Point.origin
  stock := .default
  tool := .default
  workOffsets := defaultWorkOffsets
  fixtures := []

omit [Scalar α] in
/-- The box the axis limits span. -/
def envelope (m : Machine α) : Box α :=
  ⟨⟨m.axes.x.min, m.axes.y.min, m.axes.z.min⟩, ⟨m.axes.x.max, m.axes.y.max, m.axes.z.max⟩⟩

/-- A work offset by name; the origin where the name is unknown. -/
def workOffset (m : Machine α) (name : String) : Point α :=
  (m.workOffsets.get? name).getD Point.origin

end Machine

end Machining
