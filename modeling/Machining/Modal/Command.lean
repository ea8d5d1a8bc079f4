import Machining.Modal.State
import Machining.Text.Numeral

/-!
# Commands and diagnostics

What interpreting a program yields: commands in program order, each with the index of its block
and the number of its line, and diagnostics about blocks that were skipped or only partly
understood.
-/

set_option autoImplicit false

namespace Machining

/-- A move between two programmed positions, with the modal state it was issued under and the offset
of the arc centre if its block gives one. -/
structure Motion (α : Type) where
  mode : MotionMode
  plane : Plane
  start : Point α
  target : Point α
  arcOffset : Option (Point α)
  feed : α
  spindleSpeed : α
  spindleMode : SpindleMode
  workOffset : String
  block : Nat
  line : Nat
  deriving Repr, BEq, DecidableEq, Inhabited

/-- The straight distance a move covers. -/
def Motion.distance {α : Type} [Scalar α] (m : Motion α) : α := m.start.distance m.target

/-- A step of the machine.  A snapshot holds the state that an executed block left behind. -/
inductive Command (α : Type) where
  | motion (m : Motion α)
  | toolChange (tool block line : Nat)
  | snapshot (state : ModalState α) (block line : Nat)
  deriving Repr, BEq, DecidableEq, Inhabited

namespace Command

variable {α : Type}

/-- The move, if the command is one. -/
def motion? : Command α → Option (Motion α)
  | motion m => some m
  | _ => none

/-- The index of the block the command comes from. -/
def block : Command α → Nat
  | motion m => m.block
  | toolChange _ block _ => block
  | snapshot _ block _ => block

/-- The number of the line the command comes from. -/
def line : Command α → Nat
  | motion m => m.line
  | toolChange _ _ line => line
  | snapshot _ _ line => line

end Command

/-- How much of a block a diagnostic concerns: the whole block, which was not executed, or a part
that it was executed without. -/
inductive Severity
  | error
  | warning
  deriving Repr, BEq, DecidableEq, Inhabited

/-- The short name of a severity. -/
def Severity.name : Severity → String
  | error => "error"
  | warning => "warning"

/-- The heading of a severity. -/
def Severity.heading : Severity → String
  | error => "ERROR"
  | warning => "WARNING"

/-- Something to report about a block. -/
structure Diagnostic where
  block : Nat
  line : Nat
  severity : Severity
  message : String
  deriving Repr, BEq, DecidableEq, Inhabited

/-- The line printed for a diagnostic. -/
def Diagnostic.display (d : Diagnostic) : String :=
  d.severity.heading ++ " L" ++ Numeral.text d.line ++ ": " ++ d.message

end Machining
