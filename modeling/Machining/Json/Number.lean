import Machining.Decimal.Reading
import Machining.Document.Node

/-!
# Numbers of a JSON text

A number keeps to the strict grammar: no leading zero, at least one digit on both sides of a point.
Without point and exponent it is a whole number where it fits 64 bits, signed or unsigned, except
for the negative zero.  Any other number is a double, though not always the nearest one: as many
of its digits as a word holds are rounded to a double, which is then scaled by a power of ten and
rounded once more.

* `number?` — the number in front of a text;
* `length_of_number?` — it is never empty.
-/

set_option autoImplicit false

namespace Machining.Json

/-- An exponent in front, if there is one, and the rest; an `e` needs digits after it. -/
def splitExponent? : List Char → Option (Option Int × List Char)
  | [] => some (none, [])
  | c :: cs =>
    if c = 'e' ∨ c = 'E' then
      let (negative, cs) := Numeral.splitSign cs
      let (digits, rest) := Numeral.splitDigits cs
      if digits.isEmpty then none
      else some (some (if negative then -(Numeral.value digits : Int) else Numeral.value digits),
        rest)
    else some (none, c :: cs)

/-- A word of digits and the power of ten it is multiplied with. -/
structure Significand where
  word : Nat
  exponent : Int
  deriving Repr, DecidableEq, Inhabited

/-- The digits that follow `n` as long as they make up a word with it, and the digits left over. -/
def absorb (n : Nat) : List Char → Nat × List Char
  | [] => (n, [])
  | c :: cs =>
    if 10 * n + Numeral.digitValue c < UInt64.size then
      absorb (10 * n + Numeral.digitValue c) cs
    else (n, c :: cs)

namespace Significand

/-- The significand of the digits before and after a point.  The digits before it that are left
over count as zeros, those after it not at all. -/
def ofDigits (whole fraction : List Char) (exponent : Int) : Significand :=
  let (n, zeros) := absorb 0 whole
  let (m, rest) := absorb n fraction
  ⟨m, exponent + zeros.length - (fraction.length - rest.length : Nat)⟩

/-- The greatest power of ten that is a double. -/
def greatestPower : Nat := 308

/-- The double nearest to a power of ten. -/
def powerOfTen (k : Nat) : Float := Decimal.toDouble ⟨false, 1, k⟩

/-- A double multiplied with a power of ten; nothing beyond the largest double. -/
def multiplied? (x : Float) (k : Nat) : Option Float :=
  if k ≤ greatestPower then
    let y := x * powerOfTen k
    if y.isFinite then some y else none
  else if x == 0 then some x
  else none

/-- A double divided by a power of ten, in steps of the greatest power until nothing is left. -/
def divided (x : Float) (k : Nat) : Float :=
  if k ≤ greatestPower then x / powerOfTen k
  else if x == 0 then x
  else divided (x / powerOfTen greatestPower) (k - greatestPower)
termination_by k
decreasing_by
  simp only [greatestPower] at *
  omega

/-- The double of a significand: the one nearest to the word, scaled by the power of ten. -/
def toDouble? (s : Significand) : Option Float :=
  let x := Decimal.toDouble ⟨false, s.word, 0⟩
  if 0 ≤ s.exponent then multiplied? x s.exponent.toNat
  else some (divided x (-s.exponent).toNat)

end Significand

/-- The double of a number with the given digits, if there is one. -/
def realNode (negative : Bool) (whole fraction : List Char) (exponent : Int) : Node :=
  match (Significand.ofDigits whole fraction exponent).toDouble? with
  | some x => .real (if negative then -x else x)
  | none => .unreadable

/-- The value of the parts of a number. -/
def numberNode (negative : Bool) (whole fraction : List Char) : Option Int → Node
  | some exponent => realNode negative whole fraction exponent
  | none =>
    let n := Numeral.value whole
    if fraction.isEmpty && !negative && decide (n < UInt64.size) then .integer n
    else if fraction.isEmpty && negative && decide (0 < n) &&
        decide (Int64.minValue.toInt ≤ -(n : Int)) then
      .integer (-(n : Int))
    else realNode negative whole fraction 0

/-- Whether a run of digits may stand before the point. -/
def isWholePart (digits : List Char) : Bool :=
  match digits with
  | [] => false
  | [_] => true
  | c :: _ => c != '0'

/-- A number without its sign in front and the rest. -/
def magnitude? (negative : Bool) (cs : List Char) : Option (Node × List Char) :=
  let (whole, afterWhole) := Numeral.splitDigits cs
  let (fraction, afterFraction) := Numeral.splitFraction afterWhole
  if !isWholePart whole || (afterWhole.head? == some '.' && fraction.isEmpty) then none
  else do
    let (exponent, rest) ← splitExponent? afterFraction
    some (numberNode negative whole fraction exponent, rest)

/-- A number in front and the rest. -/
def number? : List Char → Option (Node × List Char)
  | '-' :: cs => magnitude? true cs
  | cs => magnitude? false cs

theorem length_splitDigits (cs : List Char) :
    (Numeral.splitDigits cs).1.length + (Numeral.splitDigits cs).2.length = cs.length := by
  simp only [Numeral.splitDigits, ← List.length_append, List.takeWhile_append_dropWhile]

theorem length_splitFraction (cs : List Char) :
    (Numeral.splitFraction cs).2.length ≤ cs.length := by
  unfold Numeral.splitFraction
  split
  · rename_i ds
    have := length_splitDigits ds
    simp only [List.length_cons]
    omega
  · simp

theorem length_splitSign (cs : List Char) : (Numeral.splitSign cs).2.length ≤ cs.length := by
  unfold Numeral.splitSign
  split <;> simp

theorem length_of_splitExponent? {cs rest : List Char} {e : Option Int}
    (h : splitExponent? cs = some (e, rest)) : rest.length ≤ cs.length := by
  unfold splitExponent? at h
  split at h
  · simp only [Option.some.injEq, Prod.mk.injEq] at h
    obtain ⟨_, rfl⟩ := h
    exact Nat.le_refl _
  · rename_i c cs
    simp only at h
    split at h
    · split at h
      · cases h
      · simp only [Option.some.injEq, Prod.mk.injEq] at h
        have h1 := length_splitSign cs
        have h2 := length_splitDigits (Numeral.splitSign cs).2
        rw [← h.2]
        simp only [List.length_cons]
        omega
    · simp only [Option.some.injEq, Prod.mk.injEq] at h
      obtain ⟨_, rfl⟩ := h
      exact Nat.le_refl _

theorem length_of_magnitude? {negative : Bool} {cs rest : List Char} {v : Node}
    (h : magnitude? negative cs = some (v, rest)) : rest.length < cs.length := by
  unfold magnitude? at h
  simp only at h
  split at h
  · cases h
  · rename_i hw
    simp only [Option.bind_eq_bind, Option.bind_eq_some_iff, Option.some.injEq, Prod.mk.injEq,
      Prod.exists] at h
    obtain ⟨e, r, he, _, rfl⟩ := h
    have h1 := length_splitDigits cs
    have h2 := length_splitFraction (Numeral.splitDigits cs).2
    have h3 := length_of_splitExponent? he
    have h4 : 0 < (Numeral.splitDigits cs).1.length := by
      cases hd : (Numeral.splitDigits cs).1 with
      | nil => simp [hd, isWholePart] at hw
      | cons c ds => simp
    omega

theorem length_of_number? {cs rest : List Char} {v : Node} (h : number? cs = some (v, rest)) :
    rest.length < cs.length := by
  unfold number? at h
  split at h
  · have := length_of_magnitude? h
    simp only [List.length_cons]
    omega
  · exact length_of_magnitude? h

end Machining.Json
