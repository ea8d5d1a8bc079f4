import Machining.Modal.State

/-!
# Trajectory samples

A trajectory is a list of samples, one for each time slice of each move.
-/

set_option autoImplicit false

namespace Machining

/-- The machine at the end of one time slice: seconds since the start of the program, the tool
centre in machine coordinates, the axis coordinates, and the feed in millimetres per minute. -/
structure Sample (α : Type) where
  time : α
  block : Nat
  line : Nat
  position : Point α
  axes : Point α
  feed : α
  spindleSpeed : α
  spindleMode : SpindleMode
  motionMode : MotionMode
  deriving Repr, BEq, DecidableEq, Inhabited

/-- The tool cuts: the spindle turns and the move is no rapid traverse. -/
def Sample.isCutting {α : Type} (s : Sample α) : Bool :=
  s.spindleMode.isOn && !s.motionMode.isRapid

end Machining
