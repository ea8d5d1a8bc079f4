import Machining.Modal.State
import Machining.Program.Block

/-!
# Modal codes and registers

The G and M words of a block are codes: each chooses from one modal group, or asks for a tool
change.  The other letters are registers, of which a block fills each at most once: the first
value of a letter counts.
-/

set_option autoImplicit false

namespace Machining

/-- What a supported G or M word asks for. -/
inductive ModalCode
  | motion (m : MotionMode)
  | plane (p : Plane)
  | unit (u : LengthUnit)
  | workOffset (name : String)
  | distance (d : DistanceMode)
  | feed (f : FeedMode)
  | spindle (s : SpindleMode)
  | toolChange
  deriving Repr, DecidableEq, Inhabited

namespace ModalCode

/-- The code of a G word with the given whole number. -/
def ofGeneral? (code : Int) : Option ModalCode :=
  if code = 0 then some (motion .rapid)
  else if code = 1 then some (motion .linear)
  else if code = 2 then some (motion .clockwiseArc)
  else if code = 3 then some (motion .counterclockwiseArc)
  else if code = 17 then some (plane .xy)
  else if code = 18 then some (plane .xz)
  else if code = 19 then some (plane .yz)
  else if code = 20 then some (unit .inch)
  else if code = 21 then some (unit .millimetre)
  else if 54 ≤ code ∧ code ≤ 59 then some (workOffset ("G" ++ Numeral.signedText code))
  else if code = 90 then some (distance .absolute)
  else if code = 91 then some (distance .incremental)
  else if code = 94 then some (feed .unitsPerMinute)
  else none

/-- The code of an M word with the given whole number. -/
def ofMiscellaneous? (code : Int) : Option ModalCode :=
  if code = 3 then some (spindle .clockwise)
  else if code = 4 then some (spindle .counterclockwise)
  else if code = 5 then some (spindle .off)
  else if code = 6 then some toolChange
  else none

/-- The code of a word, by its letter and its value without the fraction. -/
def of? (letter : Char) (code : Int) : Option ModalCode :=
  if letter = 'G' then ofGeneral? code
  else if letter = 'M' then ofMiscellaneous? code
  else none

/-- The state after a code is applied; a tool change alters none of it. -/
def apply {α : Type} (s : ModalState α) : ModalCode → ModalState α
  | motion m => { s with motionMode := m }
  | plane p => { s with plane := p }
  | unit u => { s with unit := u }
  | workOffset name => { s with workOffset := name }
  | distance d => { s with distanceMode := d }
  | feed f => { s with feedMode := f }
  | spindle m => { s with spindleMode := m }
  | toolChange => s

end ModalCode

/-- The letters of modal codes. -/
def isCodeLetter (c : Char) : Bool := c == 'G' || c == 'M'

/-- The first value of each letter of a block, with one slot for each letter from A to Z. -/
structure Registers (α : Type) where
  slots : Vector (Option α) 26

namespace Registers

variable {α : Type}

/-- The slot of a letter. -/
def slot? (letter : Char) : Option (Fin 26) :=
  if h : 'A' ≤ letter ∧ letter ≤ 'Z' then
    some ⟨letter.toNat - 65, by
      have h2 : letter.val.toNat ≤ 'Z'.val.toNat := UInt32.le_iff_toNat_le.1 h.2
      have h3 : 'Z'.val.toNat = 90 := rfl
      have h4 : letter.toNat = letter.val.toNat := rfl
      omega⟩
  else none

/-- No letter has a value. -/
def empty : Registers α := ⟨Vector.replicate 26 none⟩

/-- Fill the slot of a word unless it is filled. -/
def fill (r : Registers α) (w : Word α) : Registers α :=
  match slot? w.letter with
  | none => r
  | some i => if r.slots[i].isSome then r else ⟨r.slots.set i (some w.value)⟩

/-- The registers after all words of a block. -/
def ofWords (ws : List (Word α)) : Registers α := ws.foldl fill empty

/-- The value of a letter. -/
def get? (r : Registers α) (letter : Char) : Option α :=
  (slot? letter).bind fun i => r.slots[i]

/-- Some of the letters has a value. -/
def hasAny (r : Registers α) (letters : List Char) : Bool :=
  letters.any fun l => (r.get? l).isSome

end Registers

end Machining
