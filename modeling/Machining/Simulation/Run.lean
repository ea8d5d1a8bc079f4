import Machining.Collision.Event
import Machining.Collision.Report
import Machining.Modal.Interpretation
import Machining.Stock.Carving
import Machining.Stock.Fingerprint
import Machining.Trajectory.Plan
import Machining.Trajectory.Stats

/-!
# Simulation

A program text goes through all stages: its blocks, their interpretation, the trajectory, and then
side by side the events and the stock that is left.  Only a stock that forms no grid can stop a
simulation, and that is known before anything else is done; what is wrong with the program shows
up among the diagnostics and events.
-/

set_option autoImplicit false

namespace Machining

/-- All that a simulation yields. -/
structure Simulation (α : Type) where
  blocks : List (Block α)
  interpretation : Interpretation α
  trajectory : List (Sample α)
  events : List (Event α)
  stock : Stock α

namespace Simulation

variable {α : Type} [Scalar α]

/-- The simulation of a program text on a machine, or what keeps its stock from forming a grid. -/
@[specialize] def run (source : String) (m : Machine α) (step : α) (policy : RemovalPolicy) :
    Except (StockFault α) (Simulation α) :=
  match Stock.ofSize m.stock with
  | .error fault => .error fault
  | .ok full =>
    let blocks := Program.parse source
    let interpretation := Interpretation.ofBlocks blocks
    let trajectory := Trajectory.plan interpretation.commands m step
    .ok {
      blocks, interpretation, trajectory
      events := Event.detect m trajectory
      stock := full.remove trajectory m.tool.diameter policy }

/-- The statistics of the trajectory. -/
def stats (s : Simulation α) : TrajectoryStats α := .ofSamples s.trajectory

end Simulation

end Machining
