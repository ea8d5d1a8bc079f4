import Machining.Machine.Descriptor

/-!
# Kinematics

On a machine with three linear axes the tool centre is the plain sum of the machine's offset, the
axis position and the work offset.  A move along a straight line loads each axis in proportion to
its share of the line, which bounds the feed of the move.
-/

set_option autoImplicit false

namespace Machining.Kinematics

variable {α : Type} [Scalar α]

/-- Moves shorter than this count as no motion, in millimetres. -/
def shortestMove : α := 1e-9

/-- The tool centre for an axis position. -/
@[inline] def toolCentre (offset axes workOffset : Point α) : Point α := offset + axes + workOffset

/-- The path velocity at which an axis with the given share of a move meets its limit; none for an
axis that stands still, and none where the quotient is undefined. -/
def ceiling? (distance component velocity : α) : Option α :=
  let c := velocity * distance / component
  if 0 < component ∧ c ≤ c then some c else none

/-- The path velocities at which the moving axes meet their limits. -/
def ceilings (delta : Point α) (a : Axes α) : List α :=
  [(delta.x, a.x.maxVelocity), (delta.y, a.y.maxVelocity),
    (delta.z, a.z.maxVelocity)].filterMap fun (component, velocity) =>
      ceiling? delta.length component velocity

/-- The greatest feed not above the desired one at which no axis exceeds its velocity limit on the
way; zero for a move too short to count.  Where no axis sets a ceiling the ceiling is infinite.
Feeds are per minute, velocities per second. -/
def limitFeed (start target : Point α) (desired : α) (a : Axes α) : α :=
  let delta := (target - start).magnitude
  if delta.length < shortestMove then 0
  else
    let ceiling :=
      match ceilings delta a with
      | [] => 1 / 0
      | c :: cs => cs.foldl Scalar.lesser c
    Scalar.lesser (desired / 60) ceiling * 60

end Machining.Kinematics
