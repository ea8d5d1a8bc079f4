import Machining.Json.Writing
import Machining.Document.Parts
import Machining.Program.Block

/-!
# Blocks in documents
-/

set_option autoImplicit false

namespace Machining

/-- A word as a record. -/
def Word.toNode (w : Word Float) : Node :=
  .record [("letter", .text w.letter.toString), ("value", .real w.value)]

/-- A block as a record. -/
def Block.toNode (b : Block Float) : Node :=
  .record [("line_number", .ofCount b.line), ("raw_text", .text b.raw),
    ("cleaned_text", .text b.cleaned), ("words", .list (b.words.map Word.toNode)),
    ("errors", .list (b.faults.map fun f => .text f.message))]

/-- The JSON text of a list of blocks. -/
def Program.toJson (bs : List (Block Float)) : String := Json.write (.list (bs.map Block.toNode))

end Machining
