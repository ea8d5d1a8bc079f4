import Machining.Decimal.Nearest

/-!
# Shortest digits

The decimal a double is written with: a multiple of the coarsest power of ten that has a multiple
reading back as the double, and of two such multiples the nearer one.  On each grid only the two
neighbours of the value are tried, since a reading is monotone.  Where the value lies half way
between two multiples that both read back, a `Tie` decides.
-/

set_option autoImplicit false

namespace Machining

/-- Which of two equally near multiples is taken. -/
inductive Tie
  | up
  | even
  deriving Repr, DecidableEq, Inhabited

/-- The positive number `mantissa · 2 ^ exponent`. -/
structure Dyadic where
  mantissa : Nat
  exponent : Int
  deriving Repr, DecidableEq, Inhabited

namespace Dyadic

/-- The magnitude of a finite double with the given bits, its sign cleared. -/
def ofBits (bits : Nat) : Dyadic :=
  let e := bits / Double.mantissaCount
  let m := bits % Double.mantissaCount
  if e = 0 then ⟨m, Double.leastExponent⟩
  else ⟨m + Double.mantissaCount, Double.leastExponent + (e - 1 : Nat)⟩

/-- The number as a ratio of whole numbers. -/
def ratio (v : Dyadic) : Nat × Nat := Double.shiftRatio v.mantissa 1 (-v.exponent)

/-- All digits of the number. -/
def exact (v : Dyadic) : Nat × Int :=
  if 0 ≤ v.exponent then (v.mantissa <<< v.exponent.toNat, 0)
  else (v.mantissa * Nat.pow 5 (-v.exponent).toNat, v.exponent)

end Dyadic

namespace Shortest

/-- The whole number of units `10 ^ g` in `num / den`, with the ratio that remains of it. -/
def onGrid (num den : Nat) (g : Int) : Nat × Nat × Nat :=
  let (a, b) :=
    if 0 ≤ g then (num, den * Nat.pow 10 g.toNat) else (num * Nat.pow 10 (-g).toNat, den)
  (a / b, a % b, b)

/-- The multiple of `10 ^ g` next to the value that reads back as `bits`, if there is one. -/
def multiple? (tie : Tie) (bits num den : Nat) (g : Int) : Option Nat :=
  let (low, rest, unit) := onGrid num den g
  let readsBack (d : Nat) : Bool := (Decimal.mk false d g).magnitudeBits == bits
  match readsBack low, readsBack (low + 1) with
  | true, true =>
    if 2 * rest < unit then some low
    else if unit < 2 * rest then some (low + 1)
    else match tie with
      | .up => some (low + 1)
      | .even => some (low + low % 2)
  | true, false => some low
  | false, true => some (low + 1)
  | false, false => none

/-- A power of ten above the value and within one order of magnitude of it, or two. -/
def topGrid (num den : Nat) : Int := (Double.binaryExponent num den * 30103).fdiv 100000 + 2

/-- The grids tried, coarsest first: seventeen digits always suffice. -/
def grids (top : Int) : List Int := (List.range 20).map fun i => top - (i : Nat)

/-- The digits and the power of ten a positive finite double of the given bits is written with. -/
def digits (tie : Tie) (bits : Nat) : Nat × Int :=
  let v := Dyadic.ofBits bits
  let (num, den) := v.ratio
  match (grids (topGrid num den)).findSome? fun g =>
      (multiple? tie bits num den g).map fun d => (d, g) with
  | some r => r
  | none => v.exact

/-- The decimal a finite double is written with. -/
def ofFloat (tie : Tie) (x : Float) : Decimal :=
  let bits := x.toBits.toNat
  let magnitude := bits % Double.signBit
  let (d, e) := if magnitude = 0 then (0, 0) else digits tie magnitude
  ⟨decide (Double.signBit ≤ bits), d, e⟩

end Shortest

end Machining
