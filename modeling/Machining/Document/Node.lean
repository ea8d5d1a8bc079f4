/-!
# Document values

What a structured document holds once it is read, whichever notation it is written in.  A record
keeps its fields in order, repeated names included, because whether a repetition matters depends
on who reads the record.
-/

set_option autoImplicit false

namespace Machining

/-- A value of a document.  An unreadable one is well formed and yet beyond what can be held: a
number past the doubles, a text with half a character, or a value nested too deep.  It may be
skipped but not read. -/
inductive Node where
  | null
  | truth (b : Bool)
  | integer (i : Int)
  | real (x : Float)
  | text (s : String)
  | list (items : List Node)
  | record (fields : List (String × Node))
  | unreadable
  deriving Inhabited

namespace Node

mutual

/-- Whether no part of a value is beyond what can be held. -/
def isReadable : Node → Bool
  | list items => areReadable items
  | record fields => fieldsReadable fields
  | unreadable => false
  | _ => true

/-- Whether all items are readable. -/
def areReadable : List Node → Bool
  | [] => true
  | v :: vs => v.isReadable && areReadable vs

/-- Whether the values of all fields are readable. -/
def fieldsReadable : List (String × Node) → Bool
  | [] => true
  | (_, v) :: fields => v.isReadable && fieldsReadable fields

end

end Node

end Machining
