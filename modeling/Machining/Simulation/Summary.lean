import Machining.Decimal.Layout
import Machining.Document.Parts
import Machining.Scalar.Double
import Machining.Simulation.Run

/-!
# Summaries

The figures of a simulation, as a record and as lines for a reader.  Lengths in the lines are in
the unit the program ends in.
-/

set_option autoImplicit false

namespace Machining

/-- A length in millimetres, written in a unit with three decimals. -/
def LengthUnit.lengthText (u : LengthUnit) (length : Float) : String :=
  fixedText 3 (u.ofMillimetres length)

/-- The figures of a simulation: errors are blocks with faults and warnings codes without effect,
the time is in seconds and the removed volume in cubic millimetres. -/
structure Summary (α : Type) where
  blocks : Nat
  commands : Nat
  samples : Nat
  errors : Nat
  warnings : Nat
  travelLimits : Nat
  collisions : Nat
  time : α
  removedVolume : α
  fingerprint : String
  deriving Repr, BEq, DecidableEq, Inhabited

namespace Simulation

/-- The figures of a simulation. -/
def summary {α : Type} [Scalar α] (s : Simulation α) : Summary α where
  blocks := s.blocks.length
  commands := s.interpretation.commands.length
  samples := s.trajectory.length
  errors := s.interpretation.count .error
  warnings := s.interpretation.count .warning
  travelLimits := Report.count s.events .travelLimit
  collisions := Report.count s.events .collision
  time := s.stats.totalTime
  removedVolume := s.stock.removedVolume
  fingerprint := s.stock.fingerprint

end Simulation

/-- Figures as a record. -/
def Summary.toNode (s : Summary Float) : Node :=
  .record [("blocks", .ofCount s.blocks), ("commands", .ofCount s.commands),
    ("samples", .ofCount s.samples), ("errors", .ofCount s.errors),
    ("warnings", .ofCount s.warnings), ("travel_limit_events", .ofCount s.travelLimits),
    ("collision_events", .ofCount s.collisions), ("machining_time_s", .real s.time),
    ("removed_volume_mm3", .real s.removedVolume), ("stock_hash", .text s.fingerprint)]

namespace Simulation

/-- A line with a label in a column of its own. -/
def labelled (label text : String) : String :=
  String.ofList ((label ++ ":").toList.rightpad 19 ' ') ++ text

/-- The path lengths in the unit the program ends in. -/
def distanceText (s : Simulation Float) : String :=
  let stats := s.stats
  let unit := s.interpretation.finalState.unit
  unit.lengthText stats.totalDistance ++ " " ++ unit.label ++ " (" ++
    unit.lengthText stats.feedDistance ++ " cutting, " ++
    unit.lengthText stats.rapidDistance ++ " rapid)"

/-- The modes the program ends in. -/
def finalStateText (s : Simulation Float) : String :=
  let state := s.interpretation.finalState
  ", ".intercalate [state.unit.description, state.distanceMode.description,
    state.plane.description, state.spindleMode.description]

/-- The figures of a simulation and its diagnostics, line by line. -/
def lines (s : Simulation Float) : List String :=
  let figures := s.summary
  [labelled "Blocks" (Numeral.text figures.blocks),
    labelled "Commands" (Numeral.text figures.commands),
    labelled "Samples" (Numeral.text figures.samples),
    labelled "Machining time" (fixedText 3 figures.time ++ " s"),
    labelled "Distance" s.distanceText,
    labelled "Events" (Numeral.text figures.travelLimits ++ " travel limit, " ++
      Numeral.text figures.collisions ++ " collision"),
    labelled "Diagnostics" (Numeral.text figures.errors ++ " errors, " ++
      Numeral.text figures.warnings ++ " warnings"),
    labelled "Removed volume" (fixedText 1 figures.removedVolume ++ " mm^3"),
    labelled "Stock hash" figures.fingerprint,
    labelled "Final state" s.finalStateText] ++
    s.interpretation.diagnostics.map fun d => "  " ++ d.display

end Simulation

end Machining
