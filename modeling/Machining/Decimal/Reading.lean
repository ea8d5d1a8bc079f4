import Machining.Decimal.Nearest

/-!
# Reading number texts

`Double.read?` reads the number of a command line or of a field written as text: an optional sign
before digits with an optional point and exponent, or a name of an infinite or undefined value in
any letter case.  At least one digit must stand before the exponent, on either side of the point.
-/

set_option autoImplicit false

namespace Machining

/-- The decimal with the given digits before and after the point and power of ten. -/
def Decimal.ofParts (negative : Bool) (whole fraction : List Char) (exponent : Int) : Decimal :=
  ⟨negative, Numeral.value (whole ++ fraction), exponent - fraction.length⟩

namespace Numeral

/-- A leading sign, as whether it is a minus, and the rest. -/
def splitSign : List Char → Bool × List Char
  | '-' :: cs => (true, cs)
  | '+' :: cs => (false, cs)
  | cs => (false, cs)

/-- The digits in front and the rest. -/
def splitDigits (cs : List Char) : List Char × List Char :=
  (cs.takeWhile isDigit, cs.dropWhile isDigit)

/-- A point with the digits after it, if a point comes first, and the rest. -/
def splitFraction : List Char → List Char × List Char
  | '.' :: cs => splitDigits cs
  | cs => ([], cs)

/-- The value of an exponent that is the whole text: an `e` of either case, an optional sign and
at least one digit; an empty text is the exponent zero. -/
def exponent? : List Char → Option Int
  | [] => some 0
  | c :: cs =>
    let (negative, ds) := splitSign cs
    if (c == 'e' || c == 'E') && !ds.isEmpty && ds.all isDigit then
      some (if negative then -(value ds : Int) else value ds)
    else none

end Numeral

namespace Decimal

/-- A decimal written with an optional sign, point and exponent. -/
def read? (cs : List Char) : Option Decimal :=
  let (negative, cs) := Numeral.splitSign cs
  let (whole, cs) := Numeral.splitDigits cs
  let (fraction, cs) := Numeral.splitFraction cs
  if whole.isEmpty && fraction.isEmpty then none
  else (Numeral.exponent? cs).map (Decimal.ofParts negative whole fraction)

end Decimal

namespace Double

/-- The undefined value. -/
def undefined : Float := 0.0 / 0.0

/-- Positive infinity. -/
def infinity : Float := Float.ofBits (UInt64.ofNat infinityBits)

/-- A number of a command line or of a field written as text. -/
def read? (text : String) : Option Float :=
  let (negative, cs) := Numeral.splitSign text.toList
  let name := String.ofList (cs.map Char.toLower)
  if name = "nan" then some undefined
  else if name = "inf" || name = "infinity" then some (if negative then -infinity else infinity)
  else (Decimal.read? text.toList).map Decimal.toDouble

end Double

end Machining
