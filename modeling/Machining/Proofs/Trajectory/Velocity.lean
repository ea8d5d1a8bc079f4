import Machining.Proofs.Trajectory.Clock
import Machining.Proofs.Trajectory.Feed

/-!
# Velocity limits

A planned move has one path speed.  For a rapid move it is the least of the velocity limits, for any
other move the greatest that neither the programmed feed nor an axis forbids.  The slices of a move
divide its time and its line alike, so on every slice the path speed is that of the move, and each
axis takes its share of it.  All of this is read with exact arithmetic.

* `Trajectory.along_mul_feed_le` — with its planned feed a move takes no axis beyond its limit;
* `Leg.Steady` — what the planner makes sure of for a move, with `Trajectory.steady_of_leg?`;
* `Leg.stretches_eq` — the slices of a move, each from the sample before it;
* `Trajectory.plan_withinLimits` — no axis exceeds its limit on any slice of a trajectory.
-/

set_option autoImplicit false

namespace Machining

/-! ## The feed of a move -/

/-- At a path speed that an axis can keep up with, its share of the path is within its reach. -/
theorem Point.along_mul_le (a b : Point ℝ) (i : Axis) {u v : ℝ} (hv : 0 ≤ v) (hle : u ≤ v) :
    |b.along i - a.along i| * u ≤ v * a.distance b := by
  rw [mul_comm]
  exact mul_le_mul hle (abs_along_sub_le a b i) (abs_nonneg _) hv

theorem Axes.le_traverseVelocity_iff (a : Axes ℝ) (x : ℝ) :
    x ≤ a.traverseVelocity ↔ ∀ i, x ≤ (a.limits i).maxVelocity := by
  unfold traverseVelocity
  rw [Scalar.lesser_real, Scalar.lesser_real, le_min_iff, le_min_iff]
  constructor
  · rintro ⟨⟨hx, hy⟩, hz⟩ i
    cases i with
    | x => exact hx
    | y => exact hy
    | z => exact hz
  · intro h
    exact ⟨⟨h .x, h .y⟩, h .z⟩

namespace Trajectory

open Kinematics (shortestMove le_limitFeed_iff limitFeed_le)

variable {motion : Motion ℝ} {axes : Axes ℝ}

theorem leastVelocity_pos : (0 : ℝ) < leastVelocity := by
  unfold leastVelocity
  norm_num

theorem feed_of_isRapid (h : motion.mode.isRapid = true) :
    feed motion axes = axes.traverseVelocity * 60 := by
  unfold feed
  rw [if_pos h, Scalar.ofNat_real]

theorem feed_of_not_isRapid (h : motion.mode.isRapid = false) : feed motion axes =
    Kinematics.limitFeed motion.start motion.target (max motion.feed 1) axes := by
  unfold feed
  rw [h, if_neg Bool.false_ne_true, Scalar.greater_real, Scalar.one_real]

variable (hlong : shortestMove ≤ motion.distance)
  (hv : ∀ i, leastVelocity ≤ (axes.limits i).maxVelocity)

include hlong hv

/-- The floor on the path velocity is never needed. -/
theorem leastVelocity_le_feed : leastVelocity ≤ feed motion axes / 60 := by
  have hpos : (0 : ℝ) < leastVelocity := leastVelocity_pos
  cases hmode : motion.mode.isRapid with
  | true =>
    rw [feed_of_isRapid hmode, mul_div_cancel_right₀ _ (by norm_num)]
    exact (axes.le_traverseVelocity_iff _).2 hv
  | false =>
    rw [feed_of_not_isRapid hmode, le_div_iff₀ (by norm_num),
      le_limitFeed_iff hlong fun i => hpos.le.trans (hv i)]
    refine ⟨?_, fun i => ?_⟩
    · apply le_max_of_le_right
      unfold leastVelocity
      norm_num
    · rw [mul_div_cancel_right₀ _ (by norm_num)]
      exact Point.along_mul_le _ _ i (hpos.le.trans (hv i)) (hv i)

/-- **No axis exceeds its limit** on a move that advances with the planned feed. -/
theorem along_mul_feed_le (i : Axis) :
    |motion.target.along i - motion.start.along i| * (feed motion axes / 60) ≤
      (axes.limits i).maxVelocity * motion.distance := by
  have hnonneg (i : Axis) : 0 ≤ (axes.limits i).maxVelocity := leastVelocity_pos.le.trans (hv i)
  cases hmode : motion.mode.isRapid with
  | true =>
    have hfeed : feed motion axes / 60 = axes.traverseVelocity := by
      rw [feed_of_isRapid hmode, mul_div_cancel_right₀ _ (by norm_num)]
    rw [hfeed]
    exact Point.along_mul_le _ _ i (hnonneg i) ((axes.le_traverseVelocity_iff _).1 le_rfl i)
  | false =>
    rw [feed_of_not_isRapid hmode]
    exact (limitFeed_le hlong hnonneg _).2 i

theorem feed_le_of_not_isRapid (h : motion.mode.isRapid = false) :
    feed motion axes ≤ max 1 motion.feed := by
  rw [feed_of_not_isRapid h, max_comm]
  exact (limitFeed_le hlong (fun i => leastVelocity_pos.le.trans (hv i)) _).1

end Trajectory

/-! ## Planned moves -/

/-- What the planner makes sure of for a move: it advances with its feed from start to target, and
neither an axis nor the programmed feed forbids that. -/
structure Leg.Steady (axes : Axes ℝ) (l : Leg ℝ) : Prop where
  slices_pos : 0 < l.slices
  distance_pos : 0 < l.motion.distance
  feed_pos : 0 < l.feed
  duration_eq : l.duration = l.motion.distance / (l.feed / 60)
  along_le : ∀ i, |l.motion.target.along i - l.motion.start.along i| * (l.feed / 60) ≤
    (axes.limits i).maxVelocity * l.motion.distance
  feed_le : l.motion.mode.isRapid = false → l.feed ≤ max 1 l.motion.feed

theorem Trajectory.steady_of_leg? {axes : Axes ℝ} {step : ℝ} {motion : Motion ℝ} {l : Leg ℝ}
    (hv : ∀ i, leastVelocity ≤ (axes.limits i).maxVelocity)
    (h : leg? axes step motion = some l) : l.Steady axes := by
  obtain ⟨hshort, rfl, hfeed, hduration, -⟩ := leg?_eq_some_iff.1 h
  have hlong : Kinematics.shortestMove ≤ l.motion.distance := not_lt.1 hshort
  have hspeed : leastVelocity ≤ l.feed / 60 := hfeed ▸ leastVelocity_le_feed hlong hv
  have hpos : 0 < l.feed / 60 := leastVelocity_pos.trans_le hspeed
  rw [Scalar.greater_real, Scalar.ofNat_real, max_eq_left hspeed] at hduration
  refine ⟨slices_pos_of_leg? h, Kinematics.shortestMove_pos.trans_le hlong, by linarith, hduration,
    ?_, ?_⟩
  · rw [hfeed]
    exact along_mul_feed_le hlong hv
  · rw [hfeed]
    exact feed_le_of_not_isRapid hlong hv

namespace Leg

section Stretches

variable {α : Type} [Scalar α]

/-- The time and axis position at which a move begins, and those at the end of each slice. -/
def readings (l : Leg α) (m : Machine α) (start : α) : List (α × Point α) :=
  (start, l.motion.start) :: (l.samples m start).map fun s => (s.time, s.axes)

/-- The samples of a move, each with the time and axis position before its slice. -/
def stretches (l : Leg α) (m : Machine α) (start : α) : List ((α × Point α) × Sample α) :=
  (l.readings m start).zip (l.samples m start)

theorem length_readings (l : Leg α) (m : Machine α) (start : α) :
    (l.readings m start).length = (l.samples m start).length + 1 := by
  simp [readings]

theorem map_snd_stretches (l : Leg α) (m : Machine α) (start : α) :
    (l.stretches m start).map Prod.snd = l.samples m start := by
  refine List.map_snd_zip ?_
  rw [length_readings]
  exact Nat.le_succ _

end Stretches

theorem along_axesAt (l : Leg ℝ) (k : ℕ) (i : Axis) : (l.axesAt k).along i =
    l.motion.start.along i +
      (l.motion.target.along i - l.motion.start.along i) * (k / l.slices) := by
  cases i with
  | x => rfl
  | y => rfl
  | z => rfl

theorem axesAt_zero (l : Leg ℝ) : l.axesAt 0 = l.motion.start := by
  refine Point.ext_along fun i => ?_
  rw [along_axesAt, Nat.cast_zero, zero_div, mul_zero, add_zero]

/-- The slices of a move in order. -/
theorem stretches_eq (l : Leg ℝ) (m : Machine ℝ) (start : ℝ) : l.stretches m start =
    (List.range l.slices).map fun k => ((after l.slice start k, l.axesAt k),
      l.sample m (k + 1) (after l.slice start (k + 1))) := by
  unfold stretches readings
  rw [samples_eq]
  refine List.ext_getElem (by simp) fun k h1 h2 => ?_
  cases k with
  | zero => simp [after, axesAt_zero]
  | succ k => simp [sample]

/-- The slices divide the way of an axis evenly. -/
theorem along_axesAt_succ_sub (l : Leg ℝ) (k : ℕ) (i : Axis) :
    (l.axesAt (k + 1)).along i - (l.axesAt k).along i =
      (l.motion.target.along i - l.motion.start.along i) / l.slices := by
  rw [along_axesAt, along_axesAt, Nat.cast_succ]
  ring

theorem distance_axesAt (l : Leg ℝ) (k : ℕ) :
    (l.axesAt k).distance (l.axesAt (k + 1)) = l.motion.distance / l.slices :=
  Point.distance_share_succ l.motion.start l.motion.target l.slices k

end Leg

/-! ## Slices -/

/-- What holds of one slice of a move on given axes; `before` is the time and the axis position at
its beginning, `s` the sample at its end. -/
structure WithinLimits (axes : Axes ℝ) (motion : Motion ℝ) (before : ℝ × Point ℝ)
    (s : Sample ℝ) : Prop where
  time_lt : before.1 < s.time
  along_le : ∀ i, |s.axes.along i - before.2.along i| / (s.time - before.1) ≤
    (axes.limits i).maxVelocity
  feed_pos : 0 < s.feed
  feed_eq : s.feed = 60 * (before.2.distance s.axes / (s.time - before.1))
  feed_le : motion.mode.isRapid = false → s.feed ≤ max 1 motion.feed

/-- **Every slice of a steady move is within the limits.** -/
theorem Leg.Steady.withinLimits {axes : Axes ℝ} {l : Leg ℝ} (h : l.Steady axes) (m : Machine ℝ)
    (start : ℝ) : ∀ q ∈ l.stretches m start, WithinLimits axes l.motion q.1 q.2 := by
  obtain ⟨hslices, hdistance, hfeed, hduration, halong, hfeedLe⟩ := h
  have hcount : (0 : ℝ) < l.slices := Nat.cast_pos.2 hslices
  have hslice : l.slice = l.motion.distance / (l.feed / 60) / l.slices := by
    rw [← hduration]
    rfl
  have hslicePos : 0 < l.slice := by
    rw [hslice]
    positivity
  intro q hq
  rw [stretches_eq] at hq
  obtain ⟨k, -, rfl⟩ := List.mem_map.1 hq
  have htime : after l.slice start (k + 1) - after l.slice start k = l.slice :=
    add_sub_cancel_left _ _
  constructor
  case time_lt =>
    show after l.slice start k < after l.slice start (k + 1)
    linarith
  case along_le =>
    intro i
    show |(l.axesAt (k + 1)).along i - (l.axesAt k).along i| /
      (after l.slice start (k + 1) - after l.slice start k) ≤ (axes.limits i).maxVelocity
    rw [htime, along_axesAt_succ_sub, abs_div, Nat.abs_cast, div_le_iff₀ hslicePos, hslice,
      ← mul_div_assoc, div_le_div_iff_of_pos_right hcount, ← mul_div_assoc,
      le_div_iff₀ (by positivity)]
    exact halong i
  case feed_pos => exact hfeed
  case feed_eq =>
    show l.feed = 60 * ((l.axesAt k).distance (l.axesAt (k + 1)) /
      (after l.slice start (k + 1) - after l.slice start k))
    rw [htime, distance_axesAt, hslice]
    field_simp
  case feed_le => exact hfeedLe

namespace Trajectory

section Moves

variable {α : Type} [Scalar α]

/-- Planned moves, each with the time at which it begins. -/
def timedFrom (start : α) : List (Leg α) → List (α × Leg α)
  | [] => []
  | l :: ls => (start, l) :: timedFrom (l.finish start) ls

/-- The moves of a command list that count, each planned and with the time at which it begins. -/
def moves (commands : List (Command α)) (m : Machine α) (step : α) : List (α × Leg α) :=
  timedFrom 0 (legs commands m step)

theorem map_snd_timedFrom (ls : List (Leg α)) : ∀ start : α,
    (timedFrom start ls).map Prod.snd = ls := by
  induction ls with
  | nil => exact fun _ => rfl
  | cons l ls ih =>
    intro start
    rw [timedFrom, List.map_cons, ih]

/-- A trajectory is made of the slices of its moves. -/
theorem samplesFrom_eq_flatMap (m : Machine α) (ls : List (Leg α)) : ∀ start : α,
    samplesFrom m start ls =
      (timedFrom start ls).flatMap fun p => (p.2.stretches m p.1).map Prod.snd := by
  induction ls with
  | nil => exact fun _ => rfl
  | cons l ls ih =>
    intro start
    rw [samplesFrom, timedFrom, List.flatMap_cons, Leg.map_snd_stretches, ih]

/-- The moves that are planned are those that are not too short to count. -/
theorem map_motion_legs (commands : List (Command α)) (m : Machine α) (step : α) :
    (legs commands m step).map Leg.motion = (commands.filterMap Command.motion?).filter
      fun x => !decide (x.distance < Kinematics.shortestMove) := by
  unfold legs
  rw [List.map_filterMap, ← List.filterMap_eq_filter]
  refine List.filterMap_congr fun x _ => ?_
  cases hplanned : leg? (usableAxes m.axes) (effectiveTimeStep step) x with
  | none => simp [Option.guard, leg?_eq_none_iff.1 hplanned]
  | some l =>
    obtain ⟨hlong, hmotion, -⟩ := leg?_eq_some_iff.1 hplanned
    simp [Option.guard, hlong, hmotion]

variable {commands : List (Command α)} {m : Machine α} {step : α}

theorem map_motion_moves : (moves commands m step).map (fun p => p.2.motion) =
    (commands.filterMap Command.motion?).filter
      fun x => !decide (x.distance < Kinematics.shortestMove) := by
  rw [← map_motion_legs commands m step, ← map_snd_timedFrom (legs commands m step) 0,
    List.map_map]
  rfl

theorem mem_legs_of_mem_moves {p : α × Leg α} (hp : p ∈ moves commands m step) :
    p.2 ∈ legs commands m step := by
  rw [← map_snd_timedFrom (legs commands m step) 0]
  exact List.mem_map_of_mem hp

end Moves

/-- Only finite velocities above zero are usable; the default takes the place of the others. -/
theorem maxVelocity_usableLimits (finite : ℝ → Bool) (l : AxisLimits ℝ) :
    (@usableLimits ℝ (.exactWith finite) l).maxVelocity =
      if finite l.maxVelocity = true ∧ 0 < l.maxVelocity then l.maxVelocity else 500 := by
  unfold usableLimits
  simp only [Scalar.usable_exactWith]
  split
  · rfl
  · exact Scalar.ofNat_real 500

/-- **Every axis stays within its velocity limit**, read with exact arithmetic.  The numbers that
fail `finite` stand for those that are not finite; unusable velocities are replaced, and the usable
ones are not below the least path velocity.  The trajectory is made of the slices of the moves that
count.  On each of them the clock advances, no axis is faster than its usable limit, and the feed is
that of the path, positive and not above the programmed feed, or one, unless the move is rapid. -/
theorem plan_withinLimits (finite : ℝ → Bool) (commands : List (Command ℝ)) (m : Machine ℝ)
    (step : ℝ) :
    letI : Scalar ℝ := .exactWith finite
    (∀ i, 1e-9 ≤ ((usableAxes m.axes).limits i).maxVelocity) →
    ((moves commands m step).map fun p => p.2.motion) =
      ((commands.filterMap Command.motion?).filter fun x =>
        !decide (x.distance < Kinematics.shortestMove)) ∧
    plan commands m step = (moves commands m step).flatMap (fun p =>
      (p.2.stretches m p.1).map Prod.snd) ∧
    ∀ p ∈ moves commands m step, ∀ q ∈ p.2.stretches m p.1,
      WithinLimits (usableAxes m.axes) p.2.motion q.1 q.2 := by
  intro hv
  refine ⟨@map_motion_moves ℝ (.exactWith finite) commands m step,
    @samplesFrom_eq_flatMap ℝ (.exactWith finite) m _ _, fun p hp q hq => ?_⟩
  obtain ⟨motion, -, hplanned⟩ := List.mem_filterMap.1
    (@mem_legs_of_mem_moves ℝ (.exactWith finite) commands m step p hp)
  -- beyond the choice of usable numbers, planning does not ask which of them are finite
  have hsteady : p.2.Steady (@usableAxes ℝ (.exactWith finite) m.axes) :=
    steady_of_leg? hv hplanned
  exact hsteady.withinLimits m p.1 q hq

/-- A machine on which only the X axis has a usable velocity: that of the Y axis counts as infinite
in the trajectory below, that of the Z axis is negative. -/
noncomputable def halfDescribed : Machine ℝ :=
  { Machine.default with
    axes := ⟨⟨-500, 500, 100, 3000⟩, ⟨-500, 500, 1e9, 3000⟩, ⟨-500, 500, -3, 3000⟩⟩ }

/-- A feed move of five millimetres. -/
noncomputable def slope : Motion ℝ :=
  ⟨.linear, .xy, ⟨0, 0, 0⟩, ⟨3, 4, 0⟩, none, 600, 0, .off, "G54", 0, 1⟩

theorem plan_withinLimits_halfDescribed :
    letI : Scalar ℝ := .exactWith fun v => decide (v < 1e9)
    (∀ i, 1e-9 ≤ ((usableAxes halfDescribed.axes).limits i).maxVelocity) ∧
    ((moves [.motion slope] halfDescribed 0.25).map fun p => p.2.motion) = [slope] ∧
    ∀ p ∈ moves [.motion slope] halfDescribed 0.25, ∀ q ∈ p.2.stretches halfDescribed p.1,
      WithinLimits (usableAxes halfDescribed.axes) p.2.motion q.1 q.2 := by
  have hv : ∀ i, 1e-9 ≤ ((@usableAxes ℝ (.exactWith fun v => decide (v < 1e9))
      halfDescribed.axes).limits i).maxVelocity := by
    intro i
    cases i
    all_goals
      simp only [usableAxes, Axes.limits, maxVelocity_usableLimits, halfDescribed]
      norm_num
  have hlong : ¬slope.distance < Kinematics.shortestMove := by
    have hdistance : slope.distance = 5 := by
      show (Point.mk (0 : ℝ) 0 0 - ⟨3, 4, 0⟩).length = 5
      rw [Point.length_eq, Point.along_sub, Point.along_sub, Point.along_sub]
      show √((0 - 3) ^ 2 + (0 - 4) ^ 2 + (0 - 0) ^ 2 : ℝ) = 5
      rw [Real.sqrt_eq_iff_mul_self_eq (by norm_num) (by norm_num)]
      norm_num
    rw [hdistance]
    unfold Kinematics.shortestMove
    norm_num
  obtain ⟨hmoves, -, hlimits⟩ :=
    plan_withinLimits (fun v => decide (v < 1e9)) [.motion slope] halfDescribed 0.25 hv
  refine ⟨hv, hmoves.trans ?_, hlimits⟩
  show [slope].filter (fun x => !decide (x.distance < Kinematics.shortestMove)) = [slope]
  simp [hlong]

end Trajectory

end Machining
