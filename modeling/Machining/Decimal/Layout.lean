import Machining.Decimal.Shortest

/-!
# Number texts

How the shortest digits of a double are set out is a matter of the text they stand in.  A
`Layout` holds these choices; three are in use.

* `Layout.plain` — reports, meshes and messages: always positional, a whole number bare;
* `Layout.serialized` — documents: a fraction or an exponent always shows that it is a double;
* `Layout.keyed` — settings tables: positional, a whole number with a zero fraction.

`fixedText` writes a given number of decimals of the exact value instead.
-/

set_option autoImplicit false

namespace Machining

/-- How digits become text: for which power of ten of the first digit they are written positionally,
whether a whole number has a zero fraction behind it, which of two equally near digit strings is
written, and the text of an undefined value. -/
structure Layout where
  positional : Int → Bool
  zeroFraction : Bool
  tie : Tie
  undefinedText : String

namespace Layout

/-- Numbers in reports, meshes and messages. -/
def plain : Layout := ⟨fun _ => true, false, .up, "NaN"⟩

/-- Numbers in documents: positional from `10 ^ (-5)` up to, and not including, `10 ^ 16`. -/
def serialized : Layout := ⟨fun e => decide (-5 ≤ e) && decide (e < 16), true, .even, "NaN"⟩

/-- Numbers in settings tables. -/
def keyed : Layout := ⟨fun _ => true, true, .up, "nan"⟩

/-- A run of zeros. -/
def zeros (n : Nat) : List Char := List.replicate n '0'

/-- Digits set out around the decimal point. -/
def positionalText (zeroFraction : Bool) (ds : List Char) (exponent : Int) : List Char :=
  if 0 ≤ exponent then
    ds ++ zeros exponent.toNat ++ (if zeroFraction then ['.', '0'] else [])
  else
    let places := (-exponent).toNat
    let padded := zeros (places + 1 - ds.length) ++ ds
    padded.take (padded.length - places) ++ '.' :: padded.drop (padded.length - places)

/-- One digit before the point, the others after it, and the power of ten, its sign always
written unless it would be a zero. -/
def scientificText (ds : List Char) (leading : Int) : List Char :=
  let fraction := match ds.drop 1 with
    | [] => []
    | rest => '.' :: rest
  ds.take 1 ++ fraction ++ 'e' :: (if leading < 0 then '-' else '+') ::
    Numeral.digits leading.natAbs

/-- The text of a decimal. -/
def decimalText (l : Layout) (d : Decimal) : List Char :=
  let ds := Numeral.digits d.digits
  let leading := d.exponent + (ds.length - 1 : Nat)
  (if d.negative then ['-'] else []) ++
    if d.digits = 0 || l.positional leading then positionalText l.zeroFraction ds d.exponent
    else scientificText ds leading

/-- The text of a double. -/
def text (l : Layout) (x : Float) : String :=
  if x.isNaN then l.undefinedText
  else if x.isFinite then String.ofList (l.decimalText (Shortest.ofFloat l.tie x))
  else if x < 0 then "-inf" else "inf"

end Layout

/-- The exact value with `places` decimals, a half going to the even neighbour; the sign of a
negative value stays even where only zeros are left. -/
def fixedText (places : Nat) (x : Float) : String :=
  if x.isNaN then "NaN"
  else if x.isFinite then
    let bits := x.toBits.toNat
    let (num, den) := (Dyadic.ofBits (bits % Double.signBit)).ratio
    let units := roundHalfEven (num * Nat.pow 10 places) den
    String.ofList ((if Double.signBit ≤ bits then ['-'] else []) ++
      Layout.positionalText false (Numeral.digits units) (-(places : Int)))
  else if x < 0 then "-inf" else "inf"

end Machining
