import Machining.Geometry.Point
import Machining.Units

/-!
# Modal state

What a program has set and not yet changed: one choice from each modal group, the feed, the
spindle, the work offset, the tool, and the programmed position.  Lengths are in millimetres and
feeds in millimetres per minute whatever the program's unit.
-/

set_option autoImplicit false

namespace Machining

/-- How the coordinates of a move are meant. -/
inductive DistanceMode
  | absolute
  | incremental
  deriving Repr, BEq, DecidableEq, Inhabited

/-- The plane of arcs. -/
inductive Plane
  | xy
  | xz
  | yz
  deriving Repr, BEq, DecidableEq, Inhabited

/-- How a feed is meant; only one way is simulated. -/
inductive FeedMode
  | unitsPerMinute
  deriving Repr, BEq, DecidableEq, Inhabited

/-- How the tool moves. -/
inductive MotionMode
  | rapid
  | linear
  | clockwiseArc
  | counterclockwiseArc
  deriving Repr, BEq, DecidableEq, Inhabited

/-- How the spindle turns. -/
inductive SpindleMode
  | clockwise
  | counterclockwise
  | off
  deriving Repr, BEq, DecidableEq, Inhabited

/-- The move is a rapid traverse. -/
def MotionMode.isRapid : MotionMode → Bool
  | rapid => true
  | _ => false

/-- The spindle turns. -/
def SpindleMode.isOn : SpindleMode → Bool
  | off => false
  | _ => true

/-- The state a program acts on; the feed is in millimetres per minute, the spindle speed in turns
per minute, and the position in work coordinates. -/
structure ModalState (α : Type) where
  unit : LengthUnit
  distanceMode : DistanceMode
  plane : Plane
  feedMode : FeedMode
  motionMode : MotionMode
  feed : α
  spindleMode : SpindleMode
  spindleSpeed : α
  workOffset : String
  tool : Nat
  position : Point α
  deriving Repr, BEq, DecidableEq, Inhabited

/-- The name of the work offset in force at power-on. -/
def defaultWorkOffset : String := "G54"

namespace ModalState

variable {α : Type} [Scalar α]

/-- The feed before any is programmed. -/
def defaultFeed : α := 1000

/-- The state at power-on. -/
def powerOn : ModalState α where
  unit := .millimetre
  distanceMode := .absolute
  plane := .xy
  feedMode := .unitsPerMinute
  motionMode := .rapid
  feed := defaultFeed
  spindleMode := .off
  spindleSpeed := 0
  workOffset := defaultWorkOffset
  tool := 0
  position := Point.origin

end ModalState

/-- A motion mode in words. -/
def MotionMode.description : MotionMode → String
  | rapid => "Rapid positioning (G0)"
  | linear => "Linear interpolation (G1)"
  | clockwiseArc => "Clockwise arc (G2)"
  | counterclockwiseArc => "Counter-clockwise arc (G3)"

/-- A plane in words. -/
def Plane.description : Plane → String
  | xy => "XY plane (G17)"
  | xz => "XZ plane (G18)"
  | yz => "YZ plane (G19)"

/-- A distance mode in words. -/
def DistanceMode.description : DistanceMode → String
  | absolute => "Absolute positioning (G90)"
  | incremental => "Incremental positioning (G91)"

/-- A unit of length in words. -/
def LengthUnit.description : LengthUnit → String
  | millimetre => "Millimeters (G21)"
  | inch => "Inches (G20)"

/-- A spindle mode in words. -/
def SpindleMode.description : SpindleMode → String
  | clockwise => "Spindle clockwise (M3)"
  | counterclockwise => "Spindle counter-clockwise (M4)"
  | off => "Spindle off (M5)"

/-- The short name of a distance mode. -/
def DistanceMode.name : DistanceMode → String
  | absolute => "absolute"
  | incremental => "incremental"

/-- The short name of a plane. -/
def Plane.name : Plane → String
  | xy => "XY"
  | xz => "XZ"
  | yz => "YZ"

/-- The short name of a feed mode. -/
def FeedMode.name : FeedMode → String
  | unitsPerMinute => "units_per_minute"

/-- The short name of a motion mode. -/
def MotionMode.name : MotionMode → String
  | rapid => "rapid"
  | linear => "linear"
  | clockwiseArc => "cw-arc"
  | counterclockwiseArc => "ccw-arc"

/-- The short name of a spindle mode. -/
def SpindleMode.name : SpindleMode → String
  | clockwise => "clockwise"
  | counterclockwise => "counter_clockwise"
  | off => "off"

/-- The short name of a unit of length. -/
def LengthUnit.name : LengthUnit → String
  | millimetre => "mm"
  | inch => "inch"

end Machining
