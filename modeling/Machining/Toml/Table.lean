import Machining.Document.Node

/-!
# Tables of TOML

The lines of a document fill one tree of tables.  How a table came about decides what may still
be done to it: one with a header of its own is closed to keys from outside, one that only a
longer header implied may still get its header, and one that a dotted key made may get more
dotted keys.  A list of tables only ever grows at its end, so its earlier items are plain values.
-/

set_option autoImplicit false

namespace Machining.Toml

/-- How a table came about: by its own header, by a longer header that leads through it, or by a
dotted key that does. -/
inductive Origin
  | header
  | implied
  | dotted
  deriving Repr, DecidableEq, Inhabited

/-- What a name stands for in a table; a list of tables has the earlier ones latest first. -/
inductive Entry where
  | value (v : Node)
  | table (origin : Origin) (entries : List (String × Entry))
  | tables (earlier : List Node) (last : List (String × Entry))
  deriving Inhabited

/-- The entries of a table. -/
abbrev Entries := List (String × Entry)

mutual

/-- The value of an entry. -/
def Entry.toNode : Entry → Node
  | .value v => v
  | .table _ entries => .record (fieldsOf entries)
  | .tables earlier last => .list (earlier.reverse ++ [.record (fieldsOf last)])

/-- The fields of a table. -/
def fieldsOf : List (String × Entry) → List (String × Node)
  | [] => []
  | (name, e) :: entries => (name, e.toNode) :: fieldsOf entries

end

namespace Entries

/-- Change the entry of a name, or make one where there is none; the change may be refused. -/
def update? (name : String) (change : Option Entry → Option Entry) : Entries → Option Entries
  | [] => (change none).map fun e => [(name, e)]
  | (n, e) :: entries =>
    if n = name then (change (some e)).map fun e => (n, e) :: entries
    else (update? name change entries).map ((n, e) :: ·)

/-- Put a value under a name that has none yet. -/
def addValue? (name : String) (v : Node) : Entries → Option Entries :=
  update? name fun
    | none => some (.value v)
    | some _ => none

/-- Put a value under a name at the end of a path of dotted keys.  The path makes the tables it
lacks; it may go on through what is open to keys from outside, but must end in a table that only
dotted keys made. -/
def addBelow? (name : String) (v : Node) : Bool → List String → Entries → Option Entries
  | dotted, [], entries => if dotted then addValue? name v entries else none
  | _, n :: path, entries =>
    entries.update? n fun
      | none => (addBelow? name v true path []).map (.table .dotted)
      | some (.table .dotted inner) => (addBelow? name v true path inner).map (.table .dotted)
      | some (.table .implied inner) => (addBelow? name v false path inner).map (.table .implied)
      | some (.tables earlier last) => (addBelow? name v false path last).map (.tables earlier)
      | some _ => none

/-- Put a value under a key. -/
def add? (path : List String) (name : String) (v : Node) (entries : Entries) : Option Entries :=
  match path with
  | [] => addValue? name v entries
  | _ => addBelow? name v false path entries

/-- Change the table that a path of headers leads to.  The path makes the tables it lacks, and
goes on through the last of a list of tables. -/
def within? (change : Entries → Option Entries) : List String → Entries → Option Entries
  | [], entries => change entries
  | n :: path, entries =>
    entries.update? n fun
      | none => (within? change path []).map (.table .implied)
      | some (.table origin inner) => (within? change path inner).map (.table origin)
      | some (.tables earlier last) => (within? change path last).map (.tables earlier)
      | some (.value _) => none

/-- Open the table of a header: a new one, or one that was only implied so far. -/
def openTable? (path : List String) (name : String) : Entries → Option Entries :=
  within? (fun entries => entries.update? name fun
    | none => some (.table .header [])
    | some (.table .implied inner) => some (.table .header inner)
    | some _ => none) path

/-- Open the next table of a list. -/
def openNext? (path : List String) (name : String) : Entries → Option Entries :=
  within? (fun entries => entries.update? name fun
    | none => some (.tables [] [])
    | some (.tables earlier last) => some (.tables (.record (fieldsOf last) :: earlier) [])
    | some _ => none) path

end Entries

end Machining.Toml
