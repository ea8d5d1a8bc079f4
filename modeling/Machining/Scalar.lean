/-!
# The numbers a simulation computes with

Geometry, planning, carving and statistics need a field with an order, a square root and whole
number bounds, and nothing else of their number type.  `Scalar` names exactly that, so one
definition serves the running program (`Float`, see `Machining.Scalar.Double`) and exact
arithmetic alike.  No law is assumed here: every definition fixes its own order of operations.

* `Scalar.lesser`, `Scalar.greater` — extrema that pass over an operand unequal to itself;
* `Scalar.magnitude` — the absolute value;
* `Scalar.usable` — the finite positive numbers, the only ones a rate or a cell size may take.
-/

set_option autoImplicit false

namespace Machining

/-- A number type with arithmetic, a decidable order, square roots and whole number bounds.  The
finite numbers are those neither infinite nor undefined.  `floorCount x` is the greatest count that
is at most `x`, zero where there is none, and `ceilCount x` the least that is at least `x`; a type
with a largest count stops at it.  `truncate x` is the whole number met first on the way from `x` to
zero. -/
class Scalar (α : Type) where
  [toAdd : Add α]
  [toSub : Sub α]
  [toMul : Mul α]
  [toDiv : Div α]
  [toNeg : Neg α]
  [toLT : LT α]
  [toLE : LE α]
  [toOfScientific : OfScientific α]
  decLT : DecidableLT α
  decLE : DecidableLE α
  ofCount : Nat → α
  sqrt : α → α
  isFinite : α → Bool
  floorCount : α → Nat
  ceilCount : α → Nat
  truncate : α → Int

namespace Scalar

variable {α : Type} [Scalar α]

-- A number type that has operations of its own keeps them ahead of those of its scalar form.

instance (priority := 10) : Add α := toAdd

instance (priority := 10) : Sub α := toSub

instance (priority := 10) : Mul α := toMul

instance (priority := 10) : Div α := toDiv

instance (priority := 10) : Neg α := toNeg

instance (priority := 10) : LT α := toLT

instance (priority := 10) : LE α := toLE

instance (priority := 10) : OfScientific α := toOfScientific

instance (priority := 10) : DecidableLT α := Scalar.decLT

instance (priority := 10) : DecidableLE α := Scalar.decLE

instance (priority := 10) (n : Nat) : OfNat α n := ⟨Scalar.ofCount n⟩

/-- The smaller of two numbers: the first of equals, and the second of an undefined first. -/
@[inline] def lesser (a b : α) : α := if b < a then b else if a ≤ a then a else b

/-- The greater of two numbers: the first of equals, and the second of an undefined first. -/
@[inline] def greater (a b : α) : α := if a < b then b else if a ≤ a then a else b

/-- The absolute value. -/
@[inline] def magnitude (a : α) : α := if a < 0 then -a else a

/-- A finite number above zero. -/
@[inline] def usable (a : α) : Bool := Scalar.isFinite a && decide (0 < a)

end Scalar

end Machining
