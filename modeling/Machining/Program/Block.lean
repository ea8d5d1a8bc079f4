import Machining.Program.Comment
import Machining.Program.Word
import Machining.Text.Blank
import Machining.Text.Split
import Machining.Text.Uppercase

/-!
# Blocks

A program is read line by line; each line becomes one block.  Comments go first, then the line is
trimmed and put into upper case, and with every blank removed it is cut at its words.  Whatever
the cut leaves over is reported with the block, and so is a word whose number has no value.

* `Block.ofLine` — one line;
* `Program.parse` — a whole text, one block per line, never failing.
-/

set_option autoImplicit false

namespace Machining

/-- What is wrong with the text of a block: text that is no word before a word or after the last
one, a number without a value, or a fault noted by someone else in their words. -/
inductive BlockFault
  | unexpected (gap : String)
  | invalidNumber (number : String)
  | unparsedTail (tail : String)
  | noted (text : String)
  deriving Repr, DecidableEq, Inhabited

/-- The wording of a fault. -/
def BlockFault.message : BlockFault → String
  | unexpected gap => "Unexpected token near '" ++ gap ++ "'"
  | invalidNumber number => "Invalid number '" ++ number ++ "'"
  | unparsedTail tail => "Cannot parse tail '" ++ tail ++ "'"
  | noted text => text

/-- A line of a program with its number, counted from one: as written; without comments, trimmed and
in upper case; its words in order, duplicates included; and its faults in order. -/
structure Block (α : Type) where
  line : Nat
  raw : String
  cleaned : String
  words : List (Word α)
  faults : List BlockFault
  deriving Repr, Inhabited

namespace Block

variable {α : Type}

/-- Nothing to execute and nothing to report. -/
def isEmpty (b : Block α) : Bool := b.words.isEmpty && b.faults.isEmpty

/-- Something is wrong with the block. -/
def hasFaults (b : Block α) : Bool := !b.faults.isEmpty

/-- The block is executed: it has words and no faults. -/
def isExecutable (b : Block α) : Bool := !b.words.isEmpty && b.faults.isEmpty

/-- The first value written for a letter. -/
def value? (b : Block α) (letter : Char) : Option α :=
  (b.words.find? fun w => w.letter == letter).map Word.value

variable [Scalar α]

/-- The words of a cut that have a value. -/
def wordsOfCut (c : Cut) : List (Word α) := c.words.filterMap fun (_, w) => Word.ofText? w

/-- The faults of one word and the gap before it. -/
def faultsOfWord (gap : List Char) (w : WordText) : List BlockFault :=
  (if gap.isEmpty then [] else [.unexpected (String.ofList gap)]) ++
  (match (Word.ofText? w : Option (Word α)) with
    | some _ => []
    | none => [.invalidNumber (String.ofList w.number)])

/-- The faults of a cut, from left to right. -/
def faultsOfCut (c : Cut) : List BlockFault :=
  c.words.flatMap (fun (gap, w) => faultsOfWord (α := α) gap w) ++
  (if c.tail.isEmpty then [] else [.unparsedTail (String.ofList c.tail)])

/-- The line without comments, trimmed and in upper case. -/
def clean (raw : List Char) : List Char :=
  Text.uppercase (Text.trim (Program.stripComments raw))

/-- The block of one line. -/
def ofLine (raw : String) (line : Nat) : Block α :=
  let cleaned := clean raw.toList
  let c := Word.cut (Text.squeeze cleaned)
  { line, raw, cleaned := String.ofList cleaned, words := wordsOfCut c,
    faults := faultsOfCut (α := α) c }

end Block

namespace Program

/-- The lines of a text: what stands between its line feeds. -/
def lines (cs : List Char) : List (List Char) := Text.split '\n' cs

/-- A line without the carriage return at its end. -/
def dropReturn (cs : List Char) : List Char :=
  if cs.getLast? = some '\r' then cs.dropLast else cs

/-- The blocks of lines that follow `n` others. -/
def parseFrom {α : Type} [Scalar α] (n : Nat) : List (List Char) → List (Block α)
  | [] => []
  | l :: ls => Block.ofLine (String.ofList (dropReturn l)) (n + 1) :: parseFrom (n + 1) ls

/-- The blocks of a program text, one per line. -/
def parse {α : Type} [Scalar α] (source : String) : List (Block α) :=
  parseFrom 0 (lines source.toList)

end Program

end Machining
