/-!
# Comments

A comment runs from an opening parenthesis to the next closing one, or from a semicolon to the end
of the line.  Parentheses do not nest.  An opening parenthesis that is never closed is ordinary
text, and so is a semicolon with a line break after it, since its comment would not end there.
-/

set_option autoImplicit false

namespace Machining.Program

/-- Remove comments; `inside` tells whether the text starts inside a parenthesis. -/
def stripFrom (inside : Bool) : List Char → List Char
  | [] => []
  | c :: cs =>
    if inside then
      if c = ')' then stripFrom false cs else stripFrom true cs
    else if c = '(' ∧ ')' ∈ cs then stripFrom true cs
    else if c = ';' ∧ '\n' ∉ cs then []
    else c :: stripFrom false cs

/-- The text without its comments. -/
def stripComments (cs : List Char) : List Char := stripFrom false cs

end Machining.Program
