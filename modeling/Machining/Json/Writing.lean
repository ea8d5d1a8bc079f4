import Machining.Decimal.Layout
import Machining.Document.Node
import Machining.Json.Text

/-!
# Writing JSON texts

`write` leaves no blanks; `writeIndented` gives every item and field a line of its own, two
spaces deeper than what it belongs to.  A double without a number text, undefined or infinite, is
written as `null`.
-/

set_option autoImplicit false

namespace Machining.Json

/-- A double. -/
def realText (x : Float) : List Char :=
  if x.isFinite then (Layout.serialized.text x).toList else "null".toList

/-- A value without parts; what cannot be held is written as `null`. -/
def scalarText : Node → List Char
  | .null => "null".toList
  | .truth b => if b then "true".toList else "false".toList
  | .integer i => (Numeral.signedText i).toList
  | .real x => realText x
  | .text s => quote s
  | _ => "null".toList

mutual

/-- A value without blanks. -/
def chars : Node → List Char
  | .list items => '[' :: itemChars items ++ [']']
  | .record fields => '\x7b' :: fieldChars fields ++ ['\x7d']
  | v => scalarText v

/-- Items with commas between them. -/
def itemChars : List Node → List Char
  | [] => []
  | [v] => chars v
  | v :: w :: vs => chars v ++ ',' :: itemChars (w :: vs)

/-- Fields with commas between them. -/
def fieldChars : List (String × Node) → List Char
  | [] => []
  | [(name, v)] => quote name ++ ':' :: chars v
  | (name, v) :: f :: fs => quote name ++ ':' :: chars v ++ ',' :: fieldChars (f :: fs)

end

/-- A line break and the blanks before a line at some depth. -/
def lineStart (depth : Nat) : List Char := '\n' :: List.replicate (2 * depth) ' '

mutual

/-- A value at some depth, over several lines. -/
def indentedChars (depth : Nat) : Node → List Char
  | .list [] => ['[', ']']
  | .list (v :: vs) =>
    '[' :: indentedItems (depth + 1) (v :: vs) ++ lineStart depth ++ [']']
  | .record [] => ['\x7b', '\x7d']
  | .record (f :: fs) =>
    '\x7b' :: indentedFields (depth + 1) (f :: fs) ++ lineStart depth ++ ['\x7d']
  | v => scalarText v

/-- Items, each on a line of its own. -/
def indentedItems (depth : Nat) : List Node → List Char
  | [] => []
  | [v] => lineStart depth ++ indentedChars depth v
  | v :: w :: vs =>
    lineStart depth ++ indentedChars depth v ++ ',' :: indentedItems depth (w :: vs)

/-- Fields, each on a line of its own. -/
def indentedFields (depth : Nat) : List (String × Node) → List Char
  | [] => []
  | [(name, v)] => lineStart depth ++ quote name ++ ':' :: ' ' :: indentedChars depth v
  | (name, v) :: f :: fs =>
    lineStart depth ++ quote name ++ ':' :: ' ' :: indentedChars depth v ++
      ',' :: indentedFields depth (f :: fs)

end

/-- The text of a value without blanks. -/
def write (v : Node) : String := String.ofList (chars v)

/-- The text of a value over several lines. -/
def writeIndented (v : Node) : String := String.ofList (indentedChars 0 v)

end Machining.Json
