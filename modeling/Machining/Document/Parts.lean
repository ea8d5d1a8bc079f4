import Machining.Decimal.Nearest
import Machining.Document.Node

/-!
# Reading the parts of a document

A structure is written either as a record, each part under one of its names, or as a list of its
parts in order.  In a record unknown names are skipped and a part may be given once, under
whichever name; a list may end early.  Where notations differ in what they let pass beyond that,
a `Convention` says so.
-/

set_option autoImplicit false

namespace Machining

/-- What a notation lets pass: whether a list may hold more items than a structure has parts, and
which values may stand beside the name of a choice. -/
structure Convention where
  surplus : Bool
  isBare : Node → Bool

namespace Node

/-- A count as a value. -/
def ofCount (n : Nat) : Node := .integer n

/-- A value that may be absent. -/
def ofOption {β : Type} (toNode : β → Node) : Option β → Node
  | some b => toNode b
  | none => .null

/-- A double; a whole number stands for the nearest one. -/
def real? : Node → Option Float
  | real x => some x
  | integer i => some (Decimal.toDouble ⟨decide (i < 0), i.natAbs, 0⟩)
  | _ => none

/-- A count up to a limit. -/
def count? (limit : Nat) : Node → Option Nat
  | integer i => if 0 ≤ i ∧ i ≤ limit then some i.toNat else none
  | _ => none

/-- The greatest count of 64 bits. -/
def largestCount : Nat := UInt64.size - 1

/-- A text. -/
def text? : Node → Option String
  | text s => some s
  | _ => none

/-- A list of values of one kind. -/
def listOf? {β : Type} (read : Node → Option β) : Node → Option (List β)
  | list items => items.mapM read
  | _ => none

/-- No value. -/
def isNull : Node → Bool
  | null => true
  | _ => false

/-- A record without fields. -/
def isEmptyRecord : Node → Bool
  | record [] => true
  | _ => false

/-- A list without items. -/
def isEmptyList : Node → Bool
  | list [] => true
  | _ => false

/-- One of several choices, by its name alone or as the name of a field that is as good as
empty. -/
def choice? {β : Type} (k : Convention) (all : List β) (name : β → String) : Node → Option β
  | text s => all.find? fun b => name b == s
  | record [(s, v)] => if k.isBare v then all.find? fun b => name b == s else none
  | _ => none

/-- The value can be a structure of `n` parts. -/
def isStructure (k : Convention) (n : Nat) : Node → Bool
  | record _ => true
  | list items => k.surplus || decide (items.length ≤ n)
  | _ => false

/-- The part at a position of a list or under one of some names in a record, if it is there.
Nothing at all where the names are given more than once. -/
def part? (position : Nat) (names : List String) : Node → Option (Option Node)
  | list items => some items[position]?
  | record fields =>
    match fields.filter fun f => names.contains f.1 with
    | [] => some none
    | [f] => some (some f.2)
    | _ => none
  | _ => none

/-- A part that must be there. -/
def required? {β : Type} (v : Node) (position : Nat) (names : List String)
    (read : Node → Option β) : Option β :=
  match v.part? position names with
  | some (some w) => read w
  | _ => none

/-- A part that has a default. -/
def defaulted? {β : Type} (v : Node) (position : Nat) (names : List String) (default : β)
    (read : Node → Option β) : Option β :=
  match v.part? position names with
  | some (some w) => read w
  | some none => some default
  | none => none

/-- A value that may be `null`. -/
def nullable? {β : Type} (read : Node → Option β) : Node → Option (Option β)
  | null => some none
  | v => (read v).map some

end Node

end Machining
