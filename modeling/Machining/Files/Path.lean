import Machining.Text.Split

/-!
# Paths

A path names the directories to go through and a file at the end, with slashes between them.  Not
every text can be one: the lengths of a path and of its parts are limited, counted in bytes, and
no null character may occur.
-/

set_option autoImplicit false

namespace Machining.Path

/-- What stands between the slashes. -/
def parts (path : String) : List String := (Text.split '/' path.toList).map String.ofList

/-- A part that goes nowhere. -/
def isIdle (part : String) : Bool := part == "" || part == "."

/-- The part that leads to the directory above. -/
def up : String := ".."

/-- The most bytes of a path. -/
def maxBytes : Nat := 4095

/-- The most bytes of a part. -/
def maxPartBytes : Nat := 255

/-- The text can be the path of a file. -/
def isUsable (path : String) : Bool :=
  decide (path.utf8ByteSize ≤ maxBytes) && !path.toList.contains '\x00' &&
    (parts path).all fun p => decide (p.utf8ByteSize ≤ maxPartBytes)

/-- The path starts from the root of all directories. -/
def isAbsolute (path : String) : Bool := path.toList.head? == some '/'

/-- The path leads to the null device. -/
def isNullDevice (path : String) : Bool :=
  isAbsolute path && (parts path).getLast? == some "null" &&
    (parts path).filter (fun p => !isIdle p) == ["dev", "null"]

/-- The last part of a path that leads to a name. -/
def fileName? (path : String) : Option String :=
  match ((parts path).filter fun p => !isIdle p).getLast? with
  | some name => if name = up then none else some name
  | none => none

/-- The directory that the last name of a path is in, as it is written; none where it is the one the
path starts from. -/
def parent? (path : String) : Option String :=
  match ((parts path).reverse.dropWhile isIdle).tail.reverse with
  | [] => none
  -- The first part stays even if it is idle: it tells whether the path starts from the root.
  | first :: rest =>
    let directory := "/".intercalate (first :: (rest.reverse.dropWhile isIdle).reverse)
    some (if directory.isEmpty then "/" else directory)

/-- What follows the last point of the file name; nothing where the only point comes first. -/
def extension? (path : String) : Option String := do
  let name := (← fileName? path).toList.reverse
  match name.dropWhile (· != '.') with
  | [] => none
  | [_] => none
  | _ => some (String.ofList (name.takeWhile (· != '.')).reverse)

end Machining.Path
