import Machining.Decimal.Layout
import Machining.Document.Node
import Machining.Toml.Text

/-!
# Writing TOML texts

`write` sets out a document of tables that hold scalars alone, a blank line between tables.  A
text is quoted in the first of four ways that needs no escape: double or single quotes on one
line, then three of them; only where none will do is it written with escapes.
-/

set_option autoImplicit false

namespace Machining.Toml

/-- A control character that no quotes can hold as it is. -/
def isControl (c : Char) : Bool :=
  c != '\t' && c != '\n' && (decide (c.toNat < 32) || c.toNat == 127)

/-- The longest run of a mark within a text, after `run` of them in a row. -/
def longestRun (mark : Char) : Nat → List Char → Nat
  | run, [] => run
  | run, c :: cs =>
    if c = mark then longestRun mark (run + 1) cs else max run (longestRun mark 0 cs)

/-- How a text is written: the mark around it, threefold where the text may span lines. -/
structure Quoting where
  quote : Quote
  spansLines : Bool
  deriving Repr, DecidableEq, Inhabited

namespace Quoting

/-- Whether a text can be written this way without an escape. -/
def holds (q : Quoting) (cs : List Char) : Bool :=
  !cs.any isControl && (q.quote == .literal || !cs.contains '\\') &&
    (q.spansLines || !cs.contains '\n') &&
    decide (longestRun q.quote.mark 0 cs ≤ if q.spansLines then 2 else 0)

/-- The ways of writing a text without an escape, in order of preference. -/
def plain : List Quoting :=
  [⟨.basic, false⟩, ⟨.literal, false⟩, ⟨.basic, true⟩, ⟨.literal, true⟩]

/-- The way a text is written. -/
def choose (cs : List Char) : Quoting :=
  (plain.find? (·.holds cs)).getD ⟨.basic, cs.contains '\n'⟩

/-- A character other than a double quote, as it is written between double quotes. -/
def escapeChar (spansLines : Bool) (c : Char) : List Char :=
  if c = '\x08' then ['\\', 'b']
  else if c = '\t' then ['\\', 't']
  else if c = '\n' then if spansLines then ['\n'] else ['\\', 'n']
  else if c = '\x0c' then ['\\', 'f']
  else if c = '\r' then ['\\', 'r']
  else if c = '\\' then ['\\', '\\']
  else if isControl c then '\\' :: 'u' :: (Hexadecimal.digits 4 c.toNat).map Char.toUpper
  else [c]

/-- A text as it is written between double quotes, after `run` of them that are part of it. -/
def escape (spansLines : Bool) : Nat → List Char → List Char
  | _, [] => []
  | run, c :: cs =>
    if c = '"' then
      if run < if spansLines then 2 else 0 then '"' :: escape spansLines (run + 1) cs
      else '\\' :: '"' :: escape spansLines 0 cs
    else escapeChar spansLines c ++ escape spansLines 0 cs

/-- A text between its marks; one with a line break begins on a line of its own. -/
def write (q : Quoting) (cs : List Char) : List Char :=
  let marks := List.replicate (if q.spansLines then 3 else 1) q.quote.mark
  let body := match q.quote with
    | .basic => escape q.spansLines 0 cs
    | .literal => cs
  marks ++ (if q.spansLines && cs.contains '\n' then ['\n'] else []) ++ body ++ marks

end Quoting

/-- A text in quotes. -/
def quoteText (s : String) : String :=
  String.ofList ((Quoting.choose s.toList).write s.toList)

/-- A scalar; for anything else, nothing. -/
def scalarText : Node → String
  | .truth b => if b then "true" else "false"
  | .integer i => Numeral.signedText i
  | .real x => Layout.keyed.text x
  | .text s => quoteText s
  | _ => ""

/-- A table with its header. -/
def tableText (name : String) (fields : List (String × Node)) : String :=
  "[" ++ name ++ "]\n" ++
    String.join (fields.map fun f => f.1 ++ " = " ++ scalarText f.2 ++ "\n")

/-- A document of tables.  All names must be able to stand without quotes. -/
def write (tables : List (String × List (String × Node))) : String :=
  String.intercalate "\n" (tables.map fun t => tableText t.1 t.2)

end Machining.Toml
