import Machining.Decimal.Reading
import Machining.Document.Node
import Machining.Text.Hexadecimal

/-!
# Numbers, words and dates of TOML

A scalar without quotes is a run of letters, digits and a few signs and is read as a whole.  The
digits of a number may be grouped by single underscores between them.  A date, a time or both is
checked and kept as text under a name of its own.
-/

set_option autoImplicit false

namespace Machining.Toml

/-- Digits without the underscores between them. -/
def ungroup? (isDigit : Char → Bool) : List Char → Option (List Char)
  | [] => none
  | [c] => if isDigit c then some [c] else none
  | c :: '_' :: cs => if isDigit c then (ungroup? isDigit cs).map (c :: ·) else none
  | c :: d :: cs => if isDigit c then (ungroup? isDigit (d :: cs)).map (c :: ·) else none

/-- The digits before the point: no zero leads other digits. -/
def wholeDigits? (cs : List Char) : Option (List Char) :=
  match ungroup? Numeral.isDigit cs with
  | some ['0'] => some ['0']
  | some ('0' :: _) => none
  | ds => ds

/-- Digits and underscores in front and the rest. -/
def splitGroups (cs : List Char) : List Char × List Char :=
  let p := fun c => Numeral.isDigit c || c == '_'
  (cs.takeWhile p, cs.dropWhile p)

/-- A whole number that fits 64 bits with a sign. -/
def integerNode? (i : Int) : Option Node :=
  if Int64.minValue.toInt ≤ i ∧ i ≤ Int64.maxValue.toInt then some (.integer i) else none

/-- The nearest double; one beyond all doubles must be negative. -/
def realNode? (d : Decimal) : Option Node :=
  if d.toDouble?.isNone && !d.negative then none else some (.real d.toDouble)

/-- An exponent that is the whole text. -/
def exponent? : List Char → Option Int
  | c :: cs =>
    if c = 'e' ∨ c = 'E' then
      let (negative, cs) := Numeral.splitSign cs
      (ungroup? Numeral.isDigit cs).map fun ds =>
        if negative then -(Numeral.value ds : Int) else Numeral.value ds
    else none
  | [] => none

/-- A decimal number: whole, or with a point or an exponent or both. -/
def decimal? (negative : Bool) (cs : List Char) : Option Node := do
  let (groups, rest) := splitGroups cs
  let whole ← wholeDigits? groups
  match rest with
  | [] =>
    let n : Int := Numeral.value whole
    integerNode? (if negative then -n else n)
  | '.' :: rest =>
    let (groups, rest) := splitGroups rest
    let fraction ← ungroup? Numeral.isDigit groups
    let exponent ← if rest.isEmpty then some 0 else exponent? rest
    realNode? (.ofParts negative whole fraction exponent)
  | rest =>
    let exponent ← exponent? rest
    realNode? (.ofParts negative whole [] exponent)

/-- A whole number in a base with the given digits. -/
def based? (base : Nat) (cs : List Char) : Option Node := do
  let isDigit c := (Hexadecimal.value? c).any fun d => decide (d < base)
  let ds ← ungroup? isDigit cs
  integerNode? (ds.foldl (fun n c => base * n + (Hexadecimal.value? c).getD 0) 0 : Nat)

/-- A number with a sign or without. -/
def signed? (cs : List Char) : Option Node :=
  let (negative, magnitude) := Numeral.splitSign cs
  if magnitude = "inf".toList then
    some (.real (if negative then -Double.infinity else Double.infinity))
  else if magnitude = "nan".toList then some (.real Double.undefined)
  else decimal? negative magnitude

/-- A number or a word. -/
def word? : List Char → Option Node
  | ['t', 'r', 'u', 'e'] => some (.truth true)
  | ['f', 'a', 'l', 's', 'e'] => some (.truth false)
  | '0' :: 'x' :: cs => based? 16 cs
  | '0' :: 'o' :: cs => based? 8 cs
  | '0' :: 'b' :: cs => based? 2 cs
  | cs => signed? cs

/-- A number of exactly `n` digits in front within some limits, and the rest. -/
def field? (n least greatest : Nat) (cs : List Char) : Option (Nat × List Char) :=
  let ds := cs.take n
  let v := Numeral.value ds
  if ds.length = n && ds.all Numeral.isDigit && decide (least ≤ v) && decide (v ≤ greatest) then
    some (v, cs.drop n)
  else none

/-- The text after a mark. -/
def after? (mark : Char) : List Char → Option (List Char)
  | [] => none
  | c :: cs => if c = mark then some cs else none

/-- The days of a month. -/
def daysIn (year month : Nat) : Nat :=
  if month = 2 then
    if year % 4 = 0 ∧ (year % 100 ≠ 0 ∨ year % 400 = 0) then 29 else 28
  else if month = 4 ∨ month = 6 ∨ month = 9 ∨ month = 11 then 30
  else 31

/-- The text after a date. -/
def afterDate? (cs : List Char) : Option (List Char) := do
  let (year, cs) ← field? 4 0 9999 cs
  let (month, cs) ← field? 2 1 12 (← after? '-' cs)
  let (_, cs) ← field? 2 1 (daysIn year month) (← after? '-' cs)
  some cs

/-- The text after a time of day. -/
def afterTime? (cs : List Char) : Option (List Char) := do
  let (_, cs) ← field? 2 0 23 cs
  let (_, cs) ← field? 2 0 59 (← after? ':' cs)
  let (_, cs) ← field? 2 0 60 (← after? ':' cs)
  match cs with
  | '.' :: cs =>
    let (digits, rest) := Numeral.splitDigits cs
    if digits.isEmpty then none else some rest
  | cs => some cs

/-- A difference to universal time that is the whole text, or nothing. -/
def isOffset : List Char → Bool
  | [] => true
  | ['Z'] => true
  | ['z'] => true
  | c :: cs =>
    (c == '+' || c == '-') && (do
      let (_, cs) ← field? 2 0 23 cs
      let (_, cs) ← field? 2 0 59 (← after? ':' cs)
      some cs) == some []

/-- A time of day, with a difference to universal time or without, that is the whole text. -/
def isClock (cs : List Char) : Bool := (afterTime? cs).any isOffset

/-- A date, a time of day, or both with a letter between them, that is the whole text. -/
def isMoment (cs : List Char) : Bool :=
  afterTime? cs == some [] ||
    match afterDate? cs with
    | some [] => true
    | some (c :: clock) => (c == 'T' || c == 't') && isClock clock
    | none => false

/-- The characters of a scalar without quotes. -/
def isScalarChar (c : Char) : Bool :=
  (decide ('a' ≤ c) && decide (c ≤ 'z')) || (decide ('A' ≤ c) && decide (c ≤ 'Z')) ||
    Numeral.isDigit c || c == '_' || c == '+' || c == '-' || c == '.' || c == ':'

/-- A date or time, kept as text. -/
def momentNode (cs : List Char) : Node := .record [("datetime", .text (String.ofList cs))]

/-- A scalar without quotes and the rest.  After a date a single space may come before the time
of day. -/
def scalar? (cs : List Char) : Option (Node × List Char) :=
  let run := cs.takeWhile isScalarChar
  let rest := cs.dropWhile isScalarChar
  if isMoment run then
    match rest with
    | ' ' :: rest' =>
      let clock := rest'.takeWhile isScalarChar
      if afterDate? run == some [] && !clock.isEmpty then
        if isClock clock then
          some (momentNode (run ++ ' ' :: clock), rest'.dropWhile isScalarChar)
        else none
      else some (momentNode run, rest)
    | _ => some (momentNode run, rest)
  else (word? run).map fun v => (v, rest)

end Machining.Toml
