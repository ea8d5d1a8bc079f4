import Machining.Scalar

/-!
# Units of length

A program is written in millimetres or in inches.  Everything after the interpreter is in
millimetres, so a value is converted once, where it is taken over.
-/

set_option autoImplicit false

namespace Machining

/-- The unit in which a program writes its lengths. -/
inductive LengthUnit
  | millimetre
  | inch
  deriving Repr, BEq, DecidableEq, Inhabited

namespace LengthUnit

variable {α : Type} [Scalar α]

/-- Millimetres in an inch. -/
def millimetresPerInch : α := 25.4

/-- A value written in this unit, in millimetres. -/
def toMillimetres (u : LengthUnit) (v : α) : α :=
  match u with
  | millimetre => v
  | inch => v * millimetresPerInch

/-- A value in millimetres, in this unit. -/
def ofMillimetres (u : LengthUnit) (v : α) : α :=
  match u with
  | millimetre => v
  | inch => v / millimetresPerInch

/-- The short label printed after a length. -/
def label : LengthUnit → String
  | millimetre => "mm"
  | inch => "in"

end LengthUnit

end Machining
