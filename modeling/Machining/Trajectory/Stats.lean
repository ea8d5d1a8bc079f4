import Machining.Trajectory.Sample

/-!
# Trajectory statistics

Each sample closes a time interval and a path segment, which are booked under the sample's own
motion mode.  The first interval begins at time zero; path length begins at the first sample.
-/

set_option autoImplicit false

namespace Machining

/-- The summary of a trajectory, in seconds, millimetres and millimetres per minute. -/
structure TrajectoryStats (α : Type) where
  count : Nat
  totalTime : α
  rapidTime : α
  feedTime : α
  feedDistance : α
  rapidDistance : α
  maxFeed : α
  deriving Repr, BEq, DecidableEq, Inhabited

namespace TrajectoryStats

variable {α : Type} [Scalar α]

/-- The statistics of no samples. -/
def zero : TrajectoryStats α := ⟨0, 0, 0, 0, 0, 0, 0⟩

/-- Book an interval and a segment under the mode of the sample that closes them. -/
def book (s : TrajectoryStats α) (x : Sample α) (dt ds : α) : TrajectoryStats α :=
  let maxFeed := Scalar.greater s.maxFeed x.feed
  if x.motionMode.isRapid then
    { s with
      rapidTime := s.rapidTime + dt, rapidDistance := s.rapidDistance + ds, maxFeed := maxFeed }
  else
    { s with
      feedTime := s.feedTime + dt, feedDistance := s.feedDistance + ds, maxFeed := maxFeed }

/-- Book the samples after a given one, or from the start. -/
def bookAll (s : TrajectoryStats α) : Option (Sample α) → List (Sample α) → TrajectoryStats α
  | _, [] => s
  | none, x :: xs => bookAll (s.book x (x.time - 0) 0) (some x) xs
  | some p, x :: xs =>
    bookAll (s.book x (x.time - p.time) (p.position.distance x.position)) (some x) xs

/-- The statistics of a trajectory. -/
def ofSamples (xs : List (Sample α)) : TrajectoryStats α :=
  { bookAll zero none xs with
    count := xs.length
    totalTime := (xs.getLast?.map Sample.time).getD 0 }

/-- The whole path length. -/
def totalDistance (s : TrajectoryStats α) : α := s.feedDistance + s.rapidDistance

end TrajectoryStats

end Machining
