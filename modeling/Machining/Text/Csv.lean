/-!
# Comma separated fields

A field is quoted when it holds a comma, a quote or a line break; inside quotes a quote is written
twice.
-/

set_option autoImplicit false

namespace Machining.Csv

/-- The characters that need quoting. -/
def isSpecial (c : Char) : Bool := c == ',' || c == '"' || c == '\r' || c == '\n'

/-- The text with each quote written twice. -/
def doubleQuotes : List Char → List Char
  | [] => []
  | c :: cs => if c = '"' then '"' :: '"' :: doubleQuotes cs else c :: doubleQuotes cs

/-- A field as it is written. -/
def field (cs : List Char) : List Char :=
  if cs.any isSpecial then '"' :: doubleQuotes cs ++ ['"'] else cs

/-- A field of a text as it is written. -/
def fieldText (s : String) : String := String.ofList (field s.toList)

end Machining.Csv
