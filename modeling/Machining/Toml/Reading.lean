import Machining.Document.Parts
import Machining.Toml.Key
import Machining.Toml.Scalar
import Machining.Toml.Table

/-!
# Reading TOML texts

A document is a sequence of lines: a key with its value, the header of a table, the header of the
next table of a list, or nothing but a comment.  Every key belongs to the table of the last
header above it.

Values nest to a limit; each list or inline table reads its parts with one level less.
-/

set_option autoImplicit false

namespace Machining.Toml

/-- A reader of a value in front of a text, which also gives the rest. -/
abbrev Reader := List Char → Option (Node × List Char)

/-- The items of a list, after its bracket, and the rest.  A comma may follow the last one. -/
def items? (value? : Reader) (cs : List Char) : Option (List Node × List Char) :=
  match skipSpace false cs with
  | ']' :: rest => some ([], rest)
  | start =>
    match value? start with
    | none => none
    | some (v, rest) =>
      match skipSpace false rest with
      | ']' :: rest => some ([v], rest)
      | ',' :: rest =>
        if _h : rest.length < cs.length then
          (items? value? rest).map fun (vs, r) => (v :: vs, r)
        else none
      | _ => none
termination_by cs.length

/-- A key with its value, to be put into a table, and the rest. -/
def pair? (value? : Reader) (cs : List Char) :
    Option ((Entries → Option Entries) × List Char) :=
  match key? cs with
  | some ((path, name), '=' :: rest) =>
    (value? (skipBlanks rest)).map fun (v, rest) => (Entries.add? path name v, rest)
  | _ => none

/-- The pairs of an inline table that is not empty, put into the table so far, and the rest. -/
def pairs? (value? : Reader) (entries : Entries) (cs : List Char) :
    Option (Entries × List Char) :=
  match pair? value? cs with
  | none => none
  | some (put, rest) =>
    match put entries, skipBlanks rest with
    | some entries, '\x7d' :: rest => some (entries, rest)
    | some entries, ',' :: rest =>
      if _h : rest.length < cs.length then pairs? value? entries rest else none
    | _, _ => none
termination_by cs.length

/-- An inline table, after its brace, and the rest. -/
def inlineTable? (value? : Reader) (cs : List Char) : Option (Node × List Char) :=
  match skipBlanks cs with
  | '\x7d' :: rest => some (.record [], rest)
  | cs => (pairs? value? [] cs).map fun (entries, rest) => (.record (fieldsOf entries), rest)

/-- A value with at most the given number of lists and inline tables within each other. -/
def value? : Nat → Reader
  | _, '"' :: cs =>
    (text? ('"' :: cs)).map fun (s, rest) => (.text (String.ofList s), rest)
  | _, '\x27' :: cs =>
    (text? ('\x27' :: cs)).map fun (s, rest) => (.text (String.ofList s), rest)
  | 0, '[' :: _ => none
  | levels + 1, '[' :: cs => (items? (value? levels) cs).map fun (vs, rest) => (.list vs, rest)
  | 0, '\x7b' :: _ => none
  | levels + 1, '\x7b' :: cs => inlineTable? (value? levels) cs
  | _, cs => scalar? cs

/-- The number of lists and inline tables that may be within each other. -/
def maxLevels : Nat := 79

/-- The tables so far and the names of the last header. -/
structure Page where
  entries : Entries
  header : List String

/-- The page after one line, and the lines below. -/
def line? (page : Page) (cs : List Char) : Option (Page × List Char) :=
  match skipBlanks cs with
  | '[' :: '[' :: rest =>
    match key? rest with
    | some ((path, name), ']' :: ']' :: rest) => do
      let entries ← page.entries.openNext? path name
      some (⟨entries, path ++ [name]⟩, ← lineEnd? rest)
    | _ => none
  | '[' :: rest =>
    match key? rest with
    | some ((path, name), ']' :: rest) => do
      let entries ← page.entries.openTable? path name
      some (⟨entries, path ++ [name]⟩, ← lineEnd? rest)
    | _ => none
  | start =>
    match lineEnd? start with
    | some rest => some (page, rest)
    | none => do
      let (put, rest) ← pair? (value? maxLevels) start
      let entries ← page.entries.within? put page.header
      some (⟨entries, page.header⟩, ← lineEnd? rest)

/-- The page after all lines. -/
def lines? (page : Page) (cs : List Char) : Option Page :=
  if cs.isEmpty then some page
  else match line? page cs with
    | none => none
    | some (page, rest) => if _h : rest.length < cs.length then lines? page rest else none
termination_by cs.length

/-- The text without a byte order mark in front. -/
def dropMark : List Char → List Char
  | [] => []
  | c :: cs => if c.toNat = 0xFEFF then cs else c :: cs

/-- A structure takes the items it has parts for and passes over the rest, and an empty table or
list may stand beside the name of a choice. -/
def convention : Convention := ⟨true, fun v => v.isEmptyRecord || v.isEmptyList⟩

/-- The value of a text: a record. -/
def read? (text : String) : Option Node :=
  (lines? ⟨[], []⟩ (dropMark text.toList)).map fun page => .record (fieldsOf page.entries)

end Machining.Toml
