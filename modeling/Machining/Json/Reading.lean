import Machining.Document.Parts
import Machining.Json.Token

/-!
# Reading JSON texts

Tokens are consumed from left to right with the records and lists that are still open kept
innermost first.  `Reading` says what may come next, `Reading.next?` takes one token, and a text
is a value when its tokens lead from the start to `finished`.

What is nested deeper than `maxDepth` is refused where it is read: it becomes unreadable.
-/

set_option autoImplicit false

namespace Machining.Json

/-- A structure holds no more items than it has parts, and only `null` may stand beside the name
of a choice. -/
def convention : Convention := ⟨false, Node.isNull⟩

/-- The number of records and lists that may be open around and including a readable one. -/
def maxDepth : Nat := 127

/-- A list or record around the current value, its parts so far latest first; a record has the name
that the current value belongs to. -/
inductive Container where
  | list (items : List Node)
  | record (fields : List (Option String × Node)) (name : Option String)

/-- What has been read and what may come next.  A list or record may end where its first part is
awaited or after a part, but not behind a comma. -/
inductive Reading where
  | value (around : List Container)
  | firstItem (around : List Container)
  | afterItem (items : List Node) (around : List Container)
  | firstName (around : List Container)
  | nextName (fields : List (Option String × Node)) (around : List Container)
  | colon (fields : List (Option String × Node)) (name : Option String)
      (around : List Container)
  | afterField (fields : List (Option String × Node)) (around : List Container)
  | finished (v : Node)

namespace Reading

/-- A value is complete. -/
def deliver (v : Node) : List Container → Reading
  | [] => finished v
  | .list items :: around => afterItem (v :: items) around
  | .record fields name :: around => afterField ((name, v) :: fields) around

/-- A list or record, unless it is nested too deep. -/
def bounded (around : List Container) (v : Node) : Node :=
  if around.length < maxDepth then v else .unreadable

/-- The fields of a record if all names are whole. -/
def wholeFields? (fields : List (Option String × Node)) : Option (List (String × Node)) :=
  fields.mapM fun (name, v) => name.map (·, v)

/-- A list is complete; its items come latest first. -/
def closeList (items : List Node) (around : List Container) : Reading :=
  deliver (bounded around (.list items.reverse)) around

/-- A record is complete; its fields come latest first. -/
def closeRecord (fields : List (Option String × Node)) (around : List Container) : Reading :=
  let v := match wholeFields? fields.reverse with
    | some fields => .record fields
    | none => .unreadable
  deliver (bounded around v) around

/-- A value begins, or is complete if it is a scalar. -/
def beginValue? (around : List Container) : Token → Option Reading
  | .openList => some (firstItem around)
  | .openRecord => some (firstName around)
  | .text (some s) => some (deliver (.text s) around)
  | .text none => some (deliver .unreadable around)
  | .scalar v => some (deliver v around)
  | _ => none

/-- The next token, if it may come. -/
def next? : Reading → Token → Option Reading
  | value around, t => beginValue? around t
  | firstItem around, .closeList => some (closeList [] around)
  | firstItem around, t => beginValue? (.list [] :: around) t
  | afterItem items around, .comma => some (value (.list items :: around))
  | afterItem items around, .closeList => some (closeList items around)
  | firstName around, .closeRecord => some (closeRecord [] around)
  | firstName around, .text name => some (colon [] name around)
  | nextName fields around, .text name => some (colon fields name around)
  | colon fields name around, .colon => some (value (.record fields name :: around))
  | afterField fields around, .comma => some (nextName fields around)
  | afterField fields around, .closeRecord => some (closeRecord fields around)
  | _, _ => none

/-- All tokens in turn. -/
def run? (r : Reading) : List Token → Option Reading
  | [] => some r
  | t :: ts => (r.next? t).bind fun r => r.run? ts

end Reading

/-- The value of a list of tokens. -/
def nodeOfTokens? (ts : List Token) : Option Node :=
  match (Reading.value []).run? ts with
  | some (.finished v) => some v
  | _ => none

/-- The value of a text. -/
def read? (text : String) : Option Node := (tokens? text.toList).bind nodeOfTokens?

end Machining.Json
