import Machining.Geometry.Document
import Machining.Json.Writing
import Machining.Trajectory.Stats

/-!
# Trajectories in documents
-/

set_option autoImplicit false

namespace Machining

/-- A sample as a record. -/
def Sample.toNode (s : Sample Float) : Node :=
  .record [("t", .real s.time), ("block_index", .ofCount s.block),
    ("line_number", .ofCount s.line), ("position", s.position.toNode),
    ("axes", s.axes.toNode), ("feed", .real s.feed), ("spindle_rpm", .real s.spindleSpeed),
    ("spindle_mode", .text s.spindleMode.name), ("motion_mode", .text s.motionMode.name)]

/-- The JSON text of a trajectory. -/
def Trajectory.toJson (xs : List (Sample Float)) : String :=
  Json.write (.list (xs.map Sample.toNode))

/-- Statistics as a record. -/
def TrajectoryStats.toNode (s : TrajectoryStats Float) : Node :=
  .record [("sample_count", .ofCount s.count), ("total_time", .real s.totalTime),
    ("rapid_time", .real s.rapidTime), ("feed_time", .real s.feedTime),
    ("feed_distance", .real s.feedDistance), ("rapid_distance", .real s.rapidDistance),
    ("max_feed", .real s.maxFeed)]

/-- The JSON text of statistics. -/
def TrajectoryStats.toJson (s : TrajectoryStats Float) : String := Json.write s.toNode

end Machining
