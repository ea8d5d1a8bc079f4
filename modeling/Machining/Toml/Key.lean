import Machining.Toml.Text

/-!
# Keys of TOML

A key is a path of names with points between them.  A name is a run of letters, digits, dashes
and underscores, or a quoted text on one line.
-/

set_option autoImplicit false

namespace Machining.Toml

/-- The characters of a name without quotes. -/
def isBare (c : Char) : Bool :=
  (decide ('a' ≤ c) && decide (c ≤ 'z')) || (decide ('A' ≤ c) && decide (c ≤ 'Z')) ||
    (decide ('0' ≤ c) && decide (c ≤ '9')) || c == '-' || c == '_'

/-- A name and the rest. -/
def name? (cs : List Char) : Option (String × List Char) :=
  match cs with
  | '"' :: _ => (lineText? cs).map fun (s, rest) => (String.ofList s, rest)
  | '\x27' :: _ => (lineText? cs).map fun (s, rest) => (String.ofList s, rest)
  | _ =>
    let bare := cs.takeWhile isBare
    if bare.isEmpty then none else some (String.ofList bare, cs.dropWhile isBare)

/-- The names of a path from the current one on, and the rest, which is no blank.  The rest after
a name is compared with what came before it, so that every point is followed by a shorter text. -/
def names? (cs : List Char) : Option (List String × List Char) :=
  match name? (skipBlanks cs) with
  | none => none
  | some (name, rest) =>
    match skipBlanks rest with
    | '.' :: rest =>
      if _h : rest.length < cs.length then (names? rest).map fun (ns, r) => (name :: ns, r)
      else none
    | rest => some ([name], rest)
termination_by cs.length

/-- The number of names a path may not reach. -/
def maxNames : Nat := 80

/-- A key, as its path and its last name, and the rest. -/
def key? (cs : List Char) : Option ((List String × String) × List Char) :=
  match names? cs with
  | some (n :: ns, rest) =>
    if ns.length + 1 < maxNames then
      some (((n :: ns).dropLast, (n :: ns).getLast (by simp)), rest)
    else none
  | _ => none

end Machining.Toml
