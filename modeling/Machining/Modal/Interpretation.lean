import Machining.Modal.Code
import Machining.Modal.Command

/-!
# Interpretation

Executing a block takes one modal state to the next and yields commands and diagnostics.  The
codes come first, in the order of the words; then the feed, the spindle speed and the tool are
taken over, in the unit the codes left in force; then the axes move; and a snapshot closes the
block.  A block with faults is reported and skipped, a block without words leaves no trace.

* `Interpretation.ofBlock` — one block;
* `Interpretation.ofBlocks` — a program from power-on, a fold over its blocks.
-/

set_option autoImplicit false

namespace Machining

/-- Commands and diagnostics in program order and the state they end in. -/
structure Interpretation (α : Type) where
  commands : List (Command α)
  diagnostics : List Diagnostic
  finalState : ModalState α
  deriving Repr, BEq, DecidableEq, Inhabited

namespace Interpretation

variable {α : Type}

/-- Nothing executed yet. -/
def start (s : ModalState α) : Interpretation α := ⟨[], [], s⟩

/-- What a run yields and then a second one, which starts where the first one ends. -/
def append (a b : Interpretation α) : Interpretation α :=
  ⟨a.commands ++ b.commands, a.diagnostics ++ b.diagnostics, b.finalState⟩

/-- The moves in program order. -/
def motions (i : Interpretation α) : List (Motion α) := i.commands.filterMap Command.motion?

/-- The lines of the snapshots in program order. -/
def snapshotLines (i : Interpretation α) : List Nat :=
  i.commands.filterMap fun
    | .snapshot _ _ line => some line
    | _ => none

/-- The number of diagnostics of a severity. -/
def count (i : Interpretation α) (s : Severity) : Nat :=
  i.diagnostics.countP fun d => d.severity == s

variable [Scalar α]

/-- The tool number a value stands for: without its fraction, within 32 bits. -/
def toolNumber (v : α) : Nat := min (Scalar.floorCount v) (UInt32.size - 1)

/-- The tool a tool change in a block asks for: the one the block names, or else the present. -/
def requestedTool (s : ModalState α) (r : Registers α) : Nat :=
  match r.get? 'T' with
  | some v => toolNumber v
  | none => s.tool

/-- Apply one code word. -/
def ofCode (r : Registers α) (block line : Nat) (s : ModalState α) (w : Word α) :
    Interpretation α :=
  let code := Scalar.truncate w.value
  match ModalCode.of? w.letter code with
  | some .toolChange => ⟨[.toolChange (requestedTool s r) block line], [], s⟩
  | some c => ⟨[], [], c.apply s⟩
  | none =>
    ⟨[], [⟨block, line, .warning,
      "Unsupported modal code " ++ w.letter.toString ++ Numeral.signedText code⟩], s⟩

/-- Apply code words one after the other. -/
def ofCodes (r : Registers α) (block line : Nat) (s : ModalState α) :
    List (Word α) → Interpretation α
  | [] => start s
  | w :: ws =>
    let first := ofCode r block line s w
    first.append (ofCodes r block line first.finalState ws)

/-- Take over feed, spindle speed and tool. -/
def takeOver (r : Registers α) (s : ModalState α) : ModalState α where
  unit := s.unit
  distanceMode := s.distanceMode
  plane := s.plane
  feedMode := s.feedMode
  motionMode := s.motionMode
  feed := ((r.get? 'F').map s.unit.toMillimetres).getD s.feed
  spindleMode := s.spindleMode
  spindleSpeed := (r.get? 'S').getD s.spindleSpeed
  workOffset := s.workOffset
  tool := ((r.get? 'T').map toolNumber).getD s.tool
  position := s.position

/-- The coordinate after a move, from the one before and the value the block gives for it. -/
def moved (unit : LengthUnit) (mode : DistanceMode) (current : α) : Option α → α
  | none => current
  | some v =>
    match mode with
    | .absolute => unit.toMillimetres v
    | .incremental => current + unit.toMillimetres v

/-- The position after a move. -/
def target (r : Registers α) (s : ModalState α) : Point α :=
  ⟨moved s.unit s.distanceMode s.position.x (r.get? 'X'),
   moved s.unit s.distanceMode s.position.y (r.get? 'Y'),
   moved s.unit s.distanceMode s.position.z (r.get? 'Z')⟩

/-- The offset of the arc centre, if the block gives any part of it. -/
def arcOffset (r : Registers α) (u : LengthUnit) : Option (Point α) :=
  if r.hasAny ['I', 'J', 'K'] then
    some ⟨u.toMillimetres ((r.get? 'I').getD 0), u.toMillimetres ((r.get? 'J').getD 0),
      u.toMillimetres ((r.get? 'K').getD 0)⟩
  else none

/-- Move the axes, if the block names any. -/
def ofAxes (r : Registers α) (block line : Nat) (s : ModalState α) : Interpretation α :=
  if r.hasAny ['X', 'Y', 'Z'] then
    let t := target r s
    ⟨[.motion ⟨s.motionMode, s.plane, s.position, t, arcOffset r s.unit, s.feed,
      s.spindleSpeed, s.spindleMode, s.workOffset, block, line⟩], [], { s with position := t }⟩
  else start s

/-- Execute the words of a block. -/
def ofWords (s : ModalState α) (block line : Nat) (ws : List (Word α)) : Interpretation α :=
  let r := Registers.ofWords ws
  let codes := ofCodes r block line s (ws.filter fun w => isCodeLetter w.letter)
  let axes := ofAxes r block line (takeOver r codes.finalState)
  (codes.append axes).append
    ⟨[.snapshot axes.finalState block line], [], axes.finalState⟩

/-- Execute a block. -/
def ofBlock (s : ModalState α) (index : Nat) (b : Block α) : Interpretation α :=
  if b.hasFaults then
    ⟨[], [⟨index, b.line, .error, "; ".intercalate (b.faults.map BlockFault.message)⟩], s⟩
  else if b.words.isEmpty then start s
  else ofWords s index b.line b.words

/-- Execute blocks of which the first has the given index. -/
def ofBlocksFrom (s : ModalState α) (index : Nat) : List (Block α) → Interpretation α
  | [] => start s
  | b :: bs =>
    let first := ofBlock s index b
    first.append (ofBlocksFrom first.finalState (index + 1) bs)

/-- Execute a program from power-on. -/
def ofBlocks (bs : List (Block α)) : Interpretation α := ofBlocksFrom ModalState.powerOn 0 bs

end Interpretation

end Machining
