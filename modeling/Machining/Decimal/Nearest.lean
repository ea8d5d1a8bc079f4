import Machining.Text.Numeral

/-!
# Decimals and the doubles nearest to them

A `Decimal` is a signed whole number of digits times a power of ten.  `Decimal.toDouble` reads it
as the nearest double, a tie going to the even neighbour, in exact whole number arithmetic: the
magnitude is a ratio `num / den`, its binary exponent fixes the spacing `2^q` of doubles there,
and the ratio is rounded to a whole number of spacings.  Mantissa and exponent then add up to the
bit pattern, so a mantissa that rounds up to the next power of two carries by itself.
-/

set_option autoImplicit false

namespace Machining

/-- The number `± digits · 10 ^ exponent`; zero too can carry a minus sign. -/
structure Decimal where
  negative : Bool
  digits : Nat
  exponent : Int
  deriving Repr, DecidableEq, Inhabited

/-- `num / den` as a whole number: the nearest, and of two the even one. -/
def roundHalfEven (num den : Nat) : Nat :=
  let q := num / den
  let r := num % den
  if 2 * r < den then q else if den < 2 * r then q + 1 else q + q % 2

namespace Double

/-- The number of mantissas of one exponent, `2 ^ 52`: what an exponent counts in a bit pattern. -/
def mantissaCount : Nat := 0x10000000000000

/-- What the sign counts in a bit pattern, `2 ^ 63`. -/
def signBit : Nat := 0x8000000000000000

/-- The bit pattern of positive infinity. -/
def infinityBits : Nat := 0x7FF * mantissaCount

/-- The exponent of the smallest spacing of doubles. -/
def leastExponent : Int := -1074

/-- The ratio `num / (den · 2 ^ k)`, a negative power moved across the fraction bar. -/
def shiftRatio (num den : Nat) (k : Int) : Nat × Nat :=
  if 0 ≤ k then (num, den <<< k.toNat) else (num <<< (-k).toNat, den)

/-- The `k` with `2 ^ k ≤ num / den < 2 ^ (k + 1)`. -/
def binaryExponent (num den : Nat) : Int :=
  let k : Int := (num.log2 : Int) - den.log2
  let (a, b) := shiftRatio num den k
  if b ≤ a then k else k - 1

/-- The bit pattern of the double nearest to `num / den`. -/
def nearestBits (num den : Nat) : Nat :=
  if num = 0 then 0 else
  let q := max (binaryExponent num den - 52) leastExponent
  let (a, b) := shiftRatio num den q
  min (roundHalfEven a b + (q - leastExponent).toNat * mantissaCount) infinityBits

/-- The double with a sign and a magnitude of the given bits. -/
def ofSignedBits (negative : Bool) (bits : Nat) : Float :=
  Float.ofBits (UInt64.ofNat (if negative then signBit + bits else bits))

end Double

namespace Decimal

/-- The magnitude as a ratio of whole numbers. -/
def ratio (d : Decimal) : Nat × Nat :=
  if 0 ≤ d.exponent then (d.digits * Nat.pow 10 d.exponent.toNat, 1)
  else (d.digits, Nat.pow 10 (-d.exponent).toNat)

/-- The bits of the double nearest to the magnitude.  Above `10 ^ 400` it is infinite and below
`10 ^ (-400)` it is zero, so that no power outside these limits is ever computed. -/
def magnitudeBits (d : Decimal) : Nat :=
  if d.digits = 0 then 0
  else if 400 < d.exponent then Double.infinityBits
  else if d.exponent + d.digits.log2 < -400 then 0
  else Double.nearestBits d.ratio.1 d.ratio.2

/-- The nearest double; infinite beyond the largest double. -/
def toDouble (d : Decimal) : Float := Double.ofSignedBits d.negative d.magnitudeBits

/-- The nearest double, or nothing beyond the largest double. -/
def toDouble? (d : Decimal) : Option Float :=
  if d.magnitudeBits = Double.infinityBits then none else some d.toDouble

end Decimal

end Machining
