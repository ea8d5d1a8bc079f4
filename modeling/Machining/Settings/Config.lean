import Machining.Decimal.Layout
import Machining.Machine.Descriptor
import Machining.Scalar.Double
import Machining.Stock.Carving
import Machining.Stock.Mesh
import Machining.Trajectory.Plan

/-!
# Configurations

Settings of a run: the time step, what removes material, which mesh is written, values that take
the place of the machine's own, and where output goes.  Every number has a least value; a
configuration with a smaller or unusable one is invalid, and an override of that kind is ignored.
-/

set_option autoImplicit false

namespace Machining

/-- Values that take the place of the machine's own, in millimetres. -/
structure Overrides (α : Type) where
  cell : Option α
  toolDiameter : Option α
  width : Option α
  height : Option α
  depth : Option α
  deriving Repr, BEq, DecidableEq, Inhabited

/-- The settings of a run; the time step is in seconds. -/
structure Config (α : Type) where
  timeStep : α
  removalPolicy : RemovalPolicy
  meshKind : MeshKind
  overrides : Overrides α
  reportPath : Option String
  meshPath : Option String
  deriving Repr, BEq, DecidableEq, Inhabited

/-- The numbers of a configuration. -/
inductive Setting
  | timeStep
  | width
  | height
  | depth
  | cell
  | toolDiameter
  deriving Repr, DecidableEq, Inhabited

namespace Setting

/-- The settings in the order in which they are checked. -/
def all : List Setting := [timeStep, width, height, depth, cell, toolDiameter]

/-- The full name of a setting. -/
def key : Setting → String
  | timeStep => "simulation.time_step"
  | width => "overrides.width"
  | height => "overrides.height"
  | depth => "overrides.depth"
  | cell => "overrides.voxel_size"
  | toolDiameter => "overrides.tool_diameter"

variable {α : Type} [Scalar α]

/-- The least value a setting may have. -/
def least : Setting → α
  | timeStep => 0.001
  | width => 1
  | height => 1
  | depth => 1
  | cell => 0.1
  | toolDiameter => 0.1

/-- A finite value that is not below the least one. -/
def accepts (s : Setting) (v : α) : Bool := Scalar.isFinite v && decide (s.least ≤ v)

/-- The wording of an invalid setting. -/
def message (s : Setting) : String :=
  "Invalid setting '" ++ s.key ++ "': must be at least " ++ Layout.plain.text s.least

end Setting

namespace Overrides

variable {α : Type}

/-- Nothing overridden. -/
def none : Overrides α := ⟨.none, .none, .none, .none, .none⟩

end Overrides

namespace Config

variable {α : Type}

/-- The value of a setting, if there is one. -/
def value? (c : Config α) : Setting → Option α
  | .timeStep => some c.timeStep
  | .width => c.overrides.width
  | .height => c.overrides.height
  | .depth => c.overrides.depth
  | .cell => c.overrides.cell
  | .toolDiameter => c.overrides.toolDiameter

variable [Scalar α]

/-- The settings where none are given. -/
def default : Config α where
  timeStep := Trajectory.defaultTimeStep
  removalPolicy := .allMotion
  meshKind := .topFaces
  overrides := .none
  reportPath := none
  meshPath := none

/-- The first setting with an invalid value. -/
def fault? (c : Config α) : Option Setting :=
  Setting.all.find? fun s => (c.value? s).any fun v => !s.accepts v

/-- The override of a setting if it is valid, or else the machine's own value. -/
def pick (c : Config α) (s : Setting) (own : α) : α :=
  match c.value? s with
  | some v => if s.accepts v then v else own
  | none => own

/-- The machine with the valid overrides in place. -/
def override (c : Config α) (m : Machine α) : Machine α :=
  { m with
    stock := ⟨c.pick .width m.stock.width, c.pick .height m.stock.height,
      c.pick .depth m.stock.depth, c.pick .cell m.stock.cell⟩
    tool := ⟨c.pick .toolDiameter m.tool.diameter⟩ }

end Config

end Machining
