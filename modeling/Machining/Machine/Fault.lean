import Machining.Decimal.Layout
import Machining.Machine.Descriptor
import Machining.Scalar.Double

/-!
# Faults of a machine

A machine is checked before it is put to use: the axes in order, travel before velocity, then the
stock, the tool and the fixtures.  The first fault found is the one reported.
-/

set_option autoImplicit false

namespace Machining

/-- What keeps a stock from forming a grid of cells: a cell size that is not a positive number, an
extent that is negative or no number, or more cells than a word counts. -/
inductive StockFault (α : Type) where
  | cellSize (value : α)
  | extent (name : String) (value : α)
  | tooLarge (nx ny nz : Nat)
  deriving Repr, DecidableEq

/-- What keeps a machine from being simulated faithfully. -/
inductive MachineFault (α : Type) where
  | invertedTravel (axis : Axis) (min max : α)
  | invalidVelocity (axis : Axis) (value : α)
  | stock (fault : StockFault α)
  | invalidTool (diameter : α)
  | invertedFixture (name : String)
  deriving Repr, DecidableEq

/-- The wording of a stock fault. -/
def StockFault.message : StockFault Float → String
  | cellSize value => "voxel size must be positive, got " ++ Layout.plain.text value
  | extent name value => name ++ " must be non-negative, got " ++ Layout.plain.text value
  | tooLarge nx ny nz =>
    Numeral.text nx ++ "x" ++ Numeral.text ny ++ "x" ++ Numeral.text nz ++ " voxels is too large"

/-- The wording of a machine fault. -/
def MachineFault.message : MachineFault Float → String
  | invertedTravel axis min max =>
    "Axis " ++ axis.name ++ " has min " ++ Layout.plain.text min ++ " greater than max " ++
      Layout.plain.text max
  | invalidVelocity axis value =>
    "Axis " ++ axis.name ++ " has invalid max velocity " ++ Layout.plain.text value
  | stock fault => "Invalid stock: " ++ fault.message
  | invalidTool diameter => "Invalid tool diameter " ++ Layout.plain.text diameter
  | invertedFixture name => "Fixture '" ++ name ++ "' has an inverted bounding box"

variable {α : Type} [Scalar α]

namespace StockSize

/-- The fault of one extent. -/
def extentFault? (name : String) (value : α) : Option (StockFault α) :=
  if Scalar.isFinite value && decide (0 ≤ value) then none else some (.extent name value)

/-- The first fault of a stock, the cell size before the extents. -/
def fault? (s : StockSize α) : Option (StockFault α) :=
  if Scalar.usable s.cell then
    (extentFault? "width" s.width) <|> (extentFault? "height" s.height) <|>
      (extentFault? "depth" s.depth)
  else some (.cellSize s.cell)

end StockSize

namespace Machine

/-- The fault of one axis, travel before velocity. -/
def axisFault? (m : Machine α) (axis : Axis) : Option (MachineFault α) :=
  let l := m.axes.limits axis
  if l.max < l.min then some (.invertedTravel axis l.min l.max)
  else if Scalar.usable l.maxVelocity then none
  else some (.invalidVelocity axis l.maxVelocity)

/-- The fault of the tool. -/
def toolFault? (m : Machine α) : Option (MachineFault α) :=
  if Scalar.usable m.tool.diameter then none else some (.invalidTool m.tool.diameter)

/-- The first fault among the fixtures. -/
def fixtureFault? (m : Machine α) : Option (MachineFault α) :=
  (m.fixtures.find? fun f => !f.box.isValid).map fun f => .invertedFixture f.name

/-- The first fault of a machine; none if the machine can be put to use. -/
def fault? (m : Machine α) : Option (MachineFault α) :=
  (Axis.all.findSome? m.axisFault?) <|> (m.stock.fault?.map .stock) <|> m.toolFault? <|>
    m.fixtureFault?

end Machine

end Machining
