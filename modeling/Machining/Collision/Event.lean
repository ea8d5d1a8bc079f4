import Machining.Machine.Descriptor
import Machining.Trajectory.Sample

/-!
# Boundary events

Every sample is held against the travel envelope, as a bare point, and against every fixture, as a
cube of the tool's radius.  Events follow the samples; for one sample the envelope comes first and
then the fixtures in the machine's order.
-/

set_option autoImplicit false

namespace Machining

/-- What was violated: the tool centre left the travel envelope, or the tool touched a fixture. -/
inductive EventKind
  | travelLimit
  | collision
  deriving Repr, BEq, DecidableEq, Inhabited

/-- The name of a kind of event. -/
def EventKind.name : EventKind → String
  | travelLimit => "TRAVEL_LIMIT"
  | collision => "COLLISION"

/-- A violation found at one sample: what it was, the time in seconds, the line and the block, the
tool centre, the moving body and what it met. -/
structure Event (α : Type) where
  kind : EventKind
  time : α
  line : Nat
  block : Nat
  point : Point α
  mover : String
  obstacle : String
  deriving Repr, BEq, DecidableEq, Inhabited

namespace Event

variable {α : Type}

/-- The name of the tool as a moving body. -/
def toolName : String := "tool"

/-- The name of the travel envelope as an obstacle. -/
def envelopeName : String := "machine_envelope"

/-- The event of a sample. -/
def ofSample (kind : EventKind) (obstacle : String) (s : Sample α) : Event α :=
  ⟨kind, s.time, s.line, s.block, s.position, toolName, obstacle⟩

/-- Moving body and obstacle. -/
def pair (e : Event α) : String := e.mover ++ ":" ++ e.obstacle

variable [Scalar α]

/-- The events of one sample. -/
def atSample (m : Machine α) (s : Sample α) : List (Event α) :=
  (if m.envelope.contains s.position then [] else [ofSample .travelLimit envelopeName s]) ++
  (m.fixtures.filter fun f => f.box.touches s.position m.tool.radius).map fun f =>
    ofSample .collision f.name s

/-- The events of a trajectory. -/
def detect (m : Machine α) (xs : List (Sample α)) : List (Event α) := xs.flatMap (atSample m)

end Event

end Machining
