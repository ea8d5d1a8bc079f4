import Machining.Modal.Command
import Machining.Trajectory.Kinematics
import Machining.Trajectory.Sample

/-!
# Planning a trajectory

Each move is planned on its own: it has a feed, hence a duration, and is cut into the least number
of equal time slices that are no longer than the time step.  Slices end on the straight line from
start to target, arcs included.  Only the clock runs on from move to move.

* `Leg` — a move with its feed and its number of slices;
* `Trajectory.plan` — the samples of a command list.
-/

set_option autoImplicit false

namespace Machining

variable {α : Type} [Scalar α]

/-- A planned move with its feed in millimetres per minute, the time it takes in seconds and the
number of its time slices. -/
structure Leg (α : Type) where
  motion : Motion α
  feed : α
  duration : α
  slices : Nat

namespace Leg

/-- The length of one slice in seconds. -/
def slice (l : Leg α) : α := l.duration / Scalar.ofCount l.slices

/-- The times at which `n` slices end that begin at `start`, latest first. -/
def clock (slice start : α) (n : Nat) : List α :=
  (List.range n).foldl (fun (ts : List α) _ => (ts.headD start + slice) :: ts) []

/-- The times at which the slices end, in order. -/
def times (l : Leg α) (start : α) : List α := (clock l.slice start l.slices).reverse

/-- The time at which the move ends. -/
def finish (l : Leg α) (start : α) : α := (clock l.slice start l.slices).headD start

/-- The axis position at the end of the slice with the given number, counted from one. -/
def axesAt (l : Leg α) (k : Nat) : Point α :=
  l.motion.start.lerp l.motion.target (Scalar.ofCount k / Scalar.ofCount l.slices)

/-- The sample at the end of a slice. -/
def sample (l : Leg α) (m : Machine α) (k : Nat) (time : α) : Sample α where
  time := time
  block := l.motion.block
  line := l.motion.line
  position := Kinematics.toolCentre m.toolCentre (l.axesAt k) (m.workOffset l.motion.workOffset)
  axes := l.axesAt k
  feed := l.feed
  spindleSpeed := l.motion.spindleSpeed
  spindleMode := l.motion.spindleMode
  motionMode := l.motion.mode

/-- The samples of a move that begins at the given time. -/
def samples (l : Leg α) (m : Machine α) (start : α) : List (Sample α) :=
  (l.times start).mapIdx fun i time => l.sample m (i + 1) time

end Leg

namespace Trajectory

/-- The time step where none is given, in seconds. -/
def defaultTimeStep : α := 0.005

/-- The velocity put in place of an unusable limit, in millimetres per second. -/
def defaultVelocity : α := 500

/-- The least path velocity a duration is computed with, in millimetres per second. -/
def leastVelocity : α := 1e-9

/-- The time step, or the default for an unusable one. -/
def effectiveTimeStep (step : α) : α := if Scalar.usable step then step else defaultTimeStep

/-- The limits of an axis with an unusable velocity replaced. -/
def usableLimits (l : AxisLimits α) : AxisLimits α :=
  if Scalar.usable l.maxVelocity then l else { l with maxVelocity := defaultVelocity }

/-- The axes with unusable velocities replaced. -/
def usableAxes (a : Axes α) : Axes α := ⟨usableLimits a.x, usableLimits a.y, usableLimits a.z⟩

/-- The feed of a move: the traverse rate for a rapid one, else the programmed feed, at least one,
as far as the axes allow it. -/
def feed (motion : Motion α) (axes : Axes α) : α :=
  if motion.mode.isRapid then axes.traverseVelocity * 60
  else Kinematics.limitFeed motion.start motion.target (Scalar.greater motion.feed 1) axes

/-- A move planned with usable axes and time step; none if it is too short to count. -/
def leg? (axes : Axes α) (step : α) (motion : Motion α) : Option (Leg α) :=
  let distance := motion.distance
  if distance < Kinematics.shortestMove then none
  else
    let feed := feed motion axes
    let duration := distance / Scalar.greater (feed / 60) leastVelocity
    some ⟨motion, feed, duration, max (Scalar.ceilCount (duration / step)) 1⟩

/-- The moves of a command list that count, planned. -/
def legs (commands : List (Command α)) (m : Machine α) (step : α) : List (Leg α) :=
  (commands.filterMap Command.motion?).filterMap
    (leg? (usableAxes m.axes) (effectiveTimeStep step))

/-- The samples of planned moves, the first of which begins at the given time. -/
def samplesFrom (m : Machine α) (start : α) : List (Leg α) → List (Sample α)
  | [] => []
  | l :: ls => l.samples m start ++ samplesFrom m (l.finish start) ls

/-- The trajectory of a command list. -/
def plan (commands : List (Command α)) (m : Machine α) (step : α) : List (Sample α) :=
  samplesFrom m 0 (legs commands m step)

end Trajectory

end Machining
