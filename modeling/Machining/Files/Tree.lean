import Machining.Files.Path

/-!
# File trees

Text files in directories, seen from one of them.  A directory is there as long as a file lies
below it; the one they are seen from and those above it always are.  An absolute path leads to
nothing but the null device, which reads as an empty text and takes any text.
-/

set_option autoImplicit false

namespace Machining

/-- Files by the names that lead to them, outermost directory first; a file above the directory the
tree is seen from has the steps upward in front. -/
structure FileTree where
  files : List (List String × String)
  deriving Repr, Inhabited

namespace FileTree

/-- No files. -/
def empty : FileTree := ⟨[]⟩

/-- The text of the file at a place. -/
def textAt? (t : FileTree) (place : List String) : Option String := t.files.lookup place

/-- The place is the directory that the tree is seen from, or one above it. -/
def isOuter (place : List String) : Bool := place.all (· == Path.up)

/-- The place is a directory. -/
def isDirectory (t : FileTree) (place : List String) : Bool :=
  isOuter place ||
    t.files.any fun f => place.isPrefixOf f.1 && decide (place.length < f.1.length)

/-- The place that one part of a path leads to from a directory. -/
def step (directory : List String) (part : String) : List String :=
  if Path.isIdle part then directory
  else if part = Path.up ∧ !isOuter directory then directory.dropLast
  else directory ++ [part]

/-- The place that the parts of a path lead to from a directory. -/
def walk? (t : FileTree) (directory : List String) : List String → Option (List String)
  | [] => some directory
  | part :: parts =>
    if t.isDirectory directory then t.walk? (step directory part) parts else none

/-- The place a path leads to; none where a directory on the way is missing. -/
def place? (t : FileTree) (path : String) : Option (List String) :=
  if Path.isUsable path && !Path.isAbsolute path then t.walk? [] (Path.parts path) else none

/-- The text of a file. -/
def read? (t : FileTree) (path : String) : Option String :=
  if Path.isNullDevice path then some "" else (t.place? path).bind t.textAt?

/-- There is a file or a directory. -/
def holds (t : FileTree) (path : String) : Bool :=
  Path.isNullDevice path ||
  match t.place? path with
  | some place => t.isDirectory place || (t.textAt? place).isSome
  | none => false

/-- The tree with a file at a place. -/
def put (t : FileTree) (place : List String) (text : String) : FileTree :=
  ⟨(place, text) :: t.files.filter fun f => f.1 != place⟩

/-- The tree with a file written, where its directory is there and no directory is in its way. -/
def write? (t : FileTree) (path text : String) : Option FileTree :=
  if Path.isNullDevice path then some t
  else do
    let place ← t.place? path
    if t.isDirectory place then none else some (t.put place text)

/-- The tree with a file and the directories it needs. -/
def add (t : FileTree) (path text : String) : FileTree :=
  t.put ((Path.parts path).foldl step []) text

/-- The tree of some files. -/
def ofList (files : List (String × String)) : FileTree :=
  files.foldl (fun t f => t.add f.1 f.2) empty

end FileTree

end Machining
