import Machining.Scalar

/-!
# Doubles as scalars

The running program computes with doubles.  Counts are 64-bit words: a value beyond the
largest word counts as the largest word, a negative or undefined one as zero.
-/

set_option autoImplicit false

namespace Machining.Double

/-- The largest count a word holds. -/
def largestCount : Nat := UInt64.size - 1

/-- The double nearest to a count of at most one word. -/
@[inline] def ofCount (n : Nat) : Float := n.toUInt64.toFloat

/-- The greatest word that is at most `x`. -/
@[inline] def floorCount (x : Float) : Nat := x.toUInt64.toNat

/-- The least word that is at least `x`; from the largest word on, that word. -/
def ceilCount (x : Float) : Nat :=
  let n := floorCount x
  if ofCount n < x then min (n + 1) largestCount else n

/-- The whole number met first on the way from `x` to zero, within the signed words. -/
def truncate (x : Float) : Int :=
  if x < 0 then max (-(floorCount (-x) : Int)) Int64.minValue.toInt
  else min (floorCount x : Int) Int64.maxValue.toInt

instance : Scalar Float where
  decLT := inferInstance
  decLE := inferInstance
  ofCount := ofCount
  sqrt := Float.sqrt
  isFinite := Float.isFinite
  floorCount := floorCount
  ceilCount := ceilCount
  truncate := truncate

end Machining.Double
