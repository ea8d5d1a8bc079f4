import Machining.Proofs.Trajectory.Parts

/-!
# Even sampling

The clock is advanced slice by slice, the axes by their share of the way.  With exact arithmetic
both come to the same: the slices of a move are equal parts of its duration and of its line, no
longer than the time step and as few as that allows.  The last one ends on the target, when the
duration is over, and the next move begins there.  So the time step decides how often a trajectory
is sampled, but not how long it lasts.

* `isLeast_slices` — the number of slices is the least that keeps them within the time step;
* `Leg.Even`, `Trajectory.even_of_leg?` — what the planner makes sure of for a move;
* `Leg.Even.sampled` — the samples of such a move;
* `Trajectory.isChain_samplesFrom` — what holds between the samples of each move holds throughout;
* `Trajectory.plan_evenly` — the whole statement for a command list.
-/

set_option autoImplicit false

namespace Machining

/-! ## The number of slices -/

/-- **The least number of equal parts that are no longer than a step.** -/
theorem isLeast_slices (duration : ℝ) {step : ℝ} (hstep : 0 < step) :
    IsLeast {n : ℕ | 0 < n ∧ duration / n ≤ step} (max (Scalar.ceilCount (duration / step)) 1) := by
  have hset : {n : ℕ | 0 < n ∧ duration / n ≤ step} =
      {n : ℕ | 1 ≤ n ∧ duration ≤ n * step} := by
    ext n
    refine and_congr_right fun hn => ?_
    rw [div_le_iff₀ (Nat.cast_pos.2 hn), mul_comm]
  rw [hset]
  exact Scalar.isLeast_ceilCount duration hstep

/-! ## One move -/

namespace Leg

section Times

variable {α : Type} [Scalar α]

/-- The last sample of a move is taken when the move ends. -/
theorem getLast?_samples (l : Leg α) (m : Machine α) (start : α) (hpos : 0 < l.slices) :
    (l.samples m start).getLast? = some (l.sample m l.slices (l.finish start)) := by
  obtain ⟨n, hn⟩ := Nat.exists_eq_succ_of_ne_zero hpos.ne'
  rw [samples_eq, finish_eq, hn, List.range_succ, List.map_append, List.map_singleton,
    List.getLast?_concat]

end Times

theorem after_real (slice start : ℝ) (n : ℕ) : after slice start n = start + n * slice := by
  induction n with
  | zero => rw [after, Nat.cast_zero, zero_mul, add_zero]
  | succ n ih =>
    rw [after, ih, Nat.cast_succ]
    ring

end Leg

namespace Trajectory

/-- The time that a move takes, its path velocity kept from vanishing. -/
noncomputable def travelTime (axes : Axes ℝ) (motion : Motion ℝ) : ℝ :=
  motion.distance / max (feed motion axes / 60) 1e-9

end Trajectory

/-- What the planner makes sure of for a move: it lasts as long as its length and feed say, in the
least number of slices that the time step allows. -/
structure Leg.Even (axes : Axes ℝ) (step : ℝ) (l : Leg ℝ) : Prop where
  feed_eq : l.feed = Trajectory.feed l.motion axes
  duration_eq : l.duration = Trajectory.travelTime axes l.motion
  duration_pos : 0 < l.duration
  slices_least : IsLeast {n : ℕ | 0 < n ∧ l.duration / n ≤ step} l.slices

theorem Trajectory.even_of_leg? {axes : Axes ℝ} {step : ℝ} {motion : Motion ℝ} {l : Leg ℝ}
    (hstep : 0 < step) (h : leg? axes step motion = some l) : l.Even axes step := by
  obtain ⟨hshort, rfl, hfeed, hduration, hslices⟩ := leg?_eq_some_iff.1 h
  have hlong : 0 < l.motion.distance := Kinematics.shortestMove_pos.trans_le (not_lt.1 hshort)
  have hspeed : Scalar.greater (l.feed / 60) leastVelocity = max (l.feed / 60) 1e-9 :=
    Scalar.greater_real _ _
  have hpos : 0 < max (l.feed / 60) 1e-9 := lt_max_of_lt_right (by norm_num)
  rw [Scalar.ofNat_real, hspeed] at hduration
  refine ⟨hfeed, ?_, ?_, ?_⟩
  · rw [travelTime, ← hfeed]
    exact hduration
  · rw [hduration]
    positivity
  · rw [hslices]
    exact isLeast_slices _ hstep

/-- What a move contributes to a trajectory: `xs` are its samples, `start` is the time at which it
begins and `duration` the time that it takes. -/
structure Sampled (step : ℝ) (motion : Motion ℝ) (start duration : ℝ) (xs : List (Sample ℝ)) :
    Prop where
  length_least : IsLeast {n : ℕ | 0 < n ∧ duration / n ≤ step} xs.length
  axes_eq : ∀ k (hk : k < xs.length) (i : Axis), xs[k].axes.along i = motion.start.along i +
    (motion.target.along i - motion.start.along i) * (k + 1) / xs.length
  time_eq : ∀ k (hk : k < xs.length), xs[k].time = start + (k + 1) * duration / xs.length
  last_axes : xs.getLast?.map Sample.axes = some motion.target
  last_time : xs.getLast?.map Sample.time = some (start + duration)

namespace Leg.Even

variable {axes : Axes ℝ} {step : ℝ} {l : Leg ℝ} (h : l.Even axes step)

include h

theorem slices_pos : 0 < l.slices := h.slices_least.1.1

theorem mul_slice : l.slices * l.slice = l.duration := by
  have hcount : (l.slices : ℝ) ≠ 0 := Nat.cast_ne_zero.2 h.slices_pos.ne'
  exact mul_div_cancel₀ _ hcount

theorem finish_eq_add (start : ℝ) : l.finish start = start + l.duration := by
  rw [Leg.finish_eq, Leg.after_real, h.mul_slice]

theorem axesAt_slices : l.axesAt l.slices = l.motion.target := by
  have hcount : (l.slices : ℝ) ≠ 0 := Nat.cast_ne_zero.2 h.slices_pos.ne'
  refine Point.ext_along fun i => ?_
  rw [along_axesAt, div_self hcount, mul_one, add_sub_cancel]

/-- **The samples of a planned move** divide its duration and its line evenly. -/
theorem sampled (m : Machine ℝ) (start : ℝ) :
    Sampled step l.motion start l.duration (l.samples m start) := by
  have hlength : (l.samples m start).length = l.slices := by
    rw [samples_eq, List.length_map, List.length_range]
  have hsample (k : ℕ) (hk : k < (l.samples m start).length) : (l.samples m start)[k] =
      l.sample m (k + 1) (after l.slice start (k + 1)) := by
    simp only [samples_eq, List.getElem_map, List.getElem_range]
  constructor
  case length_least =>
    rw [hlength]
    exact h.slices_least
  case axes_eq =>
    intro k hk i
    rw [hsample, hlength]
    show (l.axesAt (k + 1)).along i = _
    rw [along_axesAt, Nat.cast_succ, mul_div_assoc]
  case time_eq =>
    intro k hk
    rw [hsample, hlength]
    show after l.slice start (k + 1) = _
    rw [after_real, Nat.cast_succ, mul_div_assoc]
    rfl
  case last_axes =>
    rw [getLast?_samples l m start h.slices_pos, ← h.axesAt_slices]
    rfl
  case last_time =>
    rw [getLast?_samples l m start h.slices_pos, ← h.finish_eq_add]
    rfl

/-- From sample to sample the clock advances by no more than the time step. -/
theorem isChain_times (m : Machine ℝ) (start : ℝ) :
    (start :: (l.samples m start).map Sample.time).IsChain fun s t => s < t ∧ t - s ≤ step := by
  have hslice : 0 < l.slice := div_pos h.duration_pos (Nat.cast_pos.2 h.slices_pos)
  rw [map_time_samples, ← List.append_nil (List.map _ _), isChain_after_iff]
  refine ⟨fun k _ => ?_, .singleton _⟩
  rw [after]
  exact ⟨lt_add_of_pos_right _ hslice, by rw [add_sub_cancel_left]; exact h.slices_least.1.2⟩

end Leg.Even

/-! ## A trajectory -/

namespace Trajectory

section Moves

variable {α : Type} [Scalar α]

/-- **A relation between consecutive readings of the clock** holds throughout a trajectory if it
holds in each move, from its begin on. -/
theorem isChain_samplesFrom (R : α → α → Prop) (m : Machine α) (ls : List (Leg α)) : ∀ start : α,
    (∀ p ∈ timedFrom start ls, (p.1 :: (p.2.samples m p.1).map Sample.time).IsChain R) →
      (start :: (samplesFrom m start ls).map Sample.time).IsChain R := by
  induction ls with
  | nil => exact fun start _ => .singleton start
  | cons l ls ih =>
    intro start h
    rw [timedFrom, List.forall_mem_cons] at h
    obtain ⟨hfirst, hrest⟩ := h
    -- the readings of the first move, and after its last one those of the other moves
    rw [Leg.map_time_samples, ← List.append_nil (List.map _ _), Leg.isChain_after_iff] at hfirst
    rw [samplesFrom, List.map_append, Leg.map_time_samples, Leg.isChain_after_iff, ← Leg.finish_eq]
    exact ⟨hfirst.1, ih _ hrest⟩

theorem fst_of_mem_head?_timedFrom {start : α} {ls : List (Leg α)} {p : α × Leg α}
    (hp : p ∈ (timedFrom start ls).head?) : p.1 = start := by
  cases ls with
  | nil => cases hp
  | cons l ls =>
    cases hp
    rfl

/-- Every move begins at the time of the last sample of the one before it. -/
theorem isChain_timedFrom (m : Machine α) {ls : List (Leg α)} (hls : ∀ l ∈ ls, 0 < l.slices) :
    ∀ start : α, (timedFrom start ls).IsChain fun p q =>
      (p.2.samples m p.1).getLast?.map Sample.time = some q.1 := by
  induction ls with
  | nil => exact fun _ => .nil
  | cons l ls ih =>
    intro start
    obtain ⟨hl, hls⟩ := List.forall_mem_cons.1 hls
    have hrest := ih hls (l.finish start)
    have hlast : (l.samples m start).getLast?.map Sample.time = some (l.finish start) := by
      rw [Leg.getLast?_samples l m start hl]
      rfl
    cases ls with
    | nil => exact .singleton _
    | cons l' ls => exact .cons_cons hlast hrest

/-- A trajectory ends when its last move does. -/
theorem getLast?_samplesFrom (m : Machine α) {ls : List (Leg α)} (hls : ∀ l ∈ ls, 0 < l.slices) :
    ∀ start : α, ((samplesFrom m start ls).getLast?.map Sample.time).getD start =
      finishFrom start ls := by
  induction ls with
  | nil => exact fun _ => rfl
  | cons l ls ih =>
    intro start
    obtain ⟨hl, hls⟩ := List.forall_mem_cons.1 hls
    rw [samplesFrom, List.getLast?_append, Leg.getLast?_samples l m start hl, finishFrom,
      List.foldl_cons, ← finishFrom, ← ih hls]
    cases (samplesFrom m (l.finish start) ls).getLast? with
    | none => rfl
    | some s => rfl

end Moves

theorem finishFrom_eq_add {axes : Axes ℝ} {step : ℝ} {ls : List (Leg ℝ)}
    (hls : ∀ l ∈ ls, l.Even axes step) : ∀ start : ℝ,
    finishFrom start ls = start + (ls.map Leg.duration).sum := by
  induction ls with
  | nil => exact fun start => (add_zero start).symm
  | cons l ls ih =>
    intro start
    obtain ⟨hl, hls⟩ := List.forall_mem_cons.1 hls
    rw [finishFrom, List.foldl_cons, ← finishFrom, ih hls, hl.finish_eq_add, List.map_cons,
      List.sum_cons, add_assoc]

/-- Only finite steps above zero are usable; the default takes the place of the others. -/
theorem effectiveTimeStep_exactWith (finite : ℝ → Bool) (step : ℝ) :
    @effectiveTimeStep ℝ (.exactWith finite) step =
      if finite step = true ∧ 0 < step then step else 0.005 := by
  unfold effectiveTimeStep
  simp only [Scalar.usable_exactWith]
  rfl

theorem effectiveTimeStep_pos (finite : ℝ → Bool) (step : ℝ) :
    0 < @effectiveTimeStep ℝ (.exactWith finite) step := by
  rw [effectiveTimeStep_exactWith]
  split
  · rename_i husable
    exact husable.2
  · norm_num

theorem even_of_mem_legs {finite : ℝ → Bool} {commands : List (Command ℝ)} {m : Machine ℝ}
    {step : ℝ} {l : Leg ℝ} (hl : l ∈ @legs ℝ (.exactWith finite) commands m step) :
    l.Even (@usableAxes ℝ (.exactWith finite) m.axes)
      (@effectiveTimeStep ℝ (.exactWith finite) step) := by
  obtain ⟨motion, -, hplanned⟩ := List.mem_filterMap.1 hl
  exact even_of_leg? (effectiveTimeStep_pos finite step) hplanned

/-- **Every move is sampled evenly and ends on its target**, read with exact arithmetic; the numbers
that fail `finite` stand for those that are not finite.  Of the moves that count each one begins
when the one before it ends, and the first one at time zero.  So no two consecutive samples are more
than a time step apart, and the trajectory ends with the sum of the durations, which no time step
changes. -/
theorem plan_evenly (finite : ℝ → Bool) (commands : List (Command ℝ)) (m : Machine ℝ) (step : ℝ) :
    letI : Scalar ℝ := .exactWith finite
    let axes := usableAxes m.axes
    let dt := if finite step = true ∧ 0 < step then step else 0.005
    let planned := (commands.filterMap Command.motion?).filter fun x => !decide (x.distance < 1e-9)
    (moves commands m step).map (fun p => p.2.motion) = planned ∧
    plan commands m step = (moves commands m step).flatMap (fun p => p.2.samples m p.1) ∧
    (∀ p ∈ moves commands m step, p.2.feed = feed p.2.motion axes ∧
      Sampled dt p.2.motion p.1 (travelTime axes p.2.motion) (p.2.samples m p.1)) ∧
    (∀ p ∈ (moves commands m step).head?, p.1 = 0) ∧
    ((moves commands m step).IsChain fun p q =>
      (p.2.samples m p.1).getLast?.map Sample.time = some q.1) ∧
    ((0 :: (plan commands m step).map Sample.time).IsChain fun s t => s < t ∧ t - s ≤ dt) ∧
    ((plan commands m step).getLast?.map Sample.time).getD 0 =
      (planned.map (travelTime axes)).sum := by
  let _ : Scalar ℝ := .exactWith finite
  intro axes dt planned
  have heven : ∀ l ∈ legs commands m step, l.Even axes dt := by
    intro l hl
    have hl := even_of_mem_legs hl
    rwa [effectiveTimeStep_exactWith] at hl
  have hslices : ∀ l ∈ legs commands m step, 0 < l.slices := fun l hl => (heven l hl).slices_pos
  have hmoves : ∀ p ∈ moves commands m step, p.2.Even axes dt := fun p hp =>
    heven p.2 (mem_legs_of_mem_moves hp)
  have hzero : @OfNat.ofNat ℝ 0 (Scalar.instOfNat 0) = 0 := Scalar.zero_real
  refine ⟨map_motion_moves, plan_eq_flatMap commands m step, ?samples, ?first, ?next, ?steps,
    ?finish⟩
  case samples =>
    intro p hp
    have hp := hmoves p hp
    refine ⟨hp.feed_eq, ?_⟩
    rw [← hp.duration_eq]
    exact hp.sampled m p.1
  case first =>
    intro p hp
    exact (fst_of_mem_head?_timedFrom hp).trans hzero
  case next =>
    exact isChain_timedFrom m hslices _
  case steps =>
    rw [← hzero]
    exact isChain_samplesFrom _ m _ _ fun p hp => (hmoves p hp).isChain_times m p.1
  case finish =>
    rw [← hzero]
    calc ((plan commands m step).getLast?.map Sample.time).getD _
        = finishFrom _ (legs commands m step) := getLast?_samplesFrom m hslices _
      _ = _ + ((legs commands m step).map Leg.duration).sum := finishFrom_eq_add heven _
      _ = (((legs commands m step).map Leg.motion).map (travelTime axes)).sum := by
        rw [hzero, zero_add, List.map_map]
        exact congrArg List.sum (List.map_congr_left fun l hl => (heven l hl).duration_eq)
      _ = (planned.map (travelTime axes)).sum := by
        rw [map_motion_legs]
        rfl

/-- A rapid move along X, from one coordinate to another. -/
noncomputable def traverse (start target : ℝ) : Motion ℝ :=
  ⟨.rapid, .xy, ⟨start, 0, 0⟩, ⟨target, 0, 0⟩, none, 0, 0, .off, "G54", 0, 1⟩

theorem distance_traverse (start target : ℝ) :
    (traverse start target).distance = |target - start| := by
  show Point.distance ⟨start, 0, 0⟩ ⟨target, 0, 0⟩ = |target - start|
  rw [← sq_eq_sq₀ (Point.distance_nonneg _ _) (abs_nonneg _), Point.distance_sq, sq_abs]
  ring

theorem travelTime_traverse (start target : ℝ) :
    travelTime (@usableAxes ℝ (.exactWith fun _ => true) Machine.default.axes)
      (traverse start target) = |target - start| / 500 := by
  have hdefault : (AxisLimits.default : AxisLimits ℝ).maxVelocity = 500 := Scalar.ofNat_real 500
  have hvelocity : (@usableLimits ℝ (.exactWith fun _ => true) .default).maxVelocity = 500 := by
    rw [maxVelocity_usableLimits, hdefault, ite_self]
  have hfeed : feed (traverse start target)
      (@usableAxes ℝ (.exactWith fun _ => true) Machine.default.axes) = 500 * 60 := by
    rw [feed_of_isRapid rfl, Axes.traverseVelocity, Scalar.lesser_real, Scalar.lesser_real]
    show min (min (@usableLimits ℝ (.exactWith fun _ => true) .default).maxVelocity
      (@usableLimits ℝ (.exactWith fun _ => true) .default).maxVelocity)
      (@usableLimits ℝ (.exactWith fun _ => true) .default).maxVelocity * 60 = 500 * 60
    rw [hvelocity, min_self, min_self]
  rw [travelTime, distance_traverse, hfeed, mul_div_cancel_right₀ _ (by norm_num),
    max_eq_left (by norm_num)]

/-- Two moves of five millimetres, with one between them that is too short to count, and a time
step that is not usable. -/
theorem plan_evenly_thereAndBack :
    letI : Scalar ℝ := .exactWith fun _ => true
    let cs : List (Command ℝ) :=
      [.motion (traverse 0 5), .motion (traverse 5 5.0000000001), .motion (traverse 5 0)]
    ∃ p q, moves cs Machine.default (-1) = [p, q] ∧ p.1 = 0 ∧ q.1 = 0.01 ∧
      Sampled 0.005 (traverse 0 5) 0 0.01 (p.2.samples Machine.default p.1) ∧
      Sampled 0.005 (traverse 5 0) 0.01 0.01 (q.2.samples Machine.default q.1) := by
  let _ : Scalar ℝ := .exactWith fun _ => true
  intro cs
  obtain ⟨hmotions, -, hsampled, hfirst, hnext, -, -⟩ :=
    plan_evenly (fun _ => true) cs Machine.default (-1)
  have hplanned : ((cs.filterMap Command.motion?).filter fun x => !decide (x.distance < 1e-9)) =
      [traverse 0 5, traverse 5 0] := by
    show [traverse 0 5, traverse 5 5.0000000001, traverse 5 0].filter
      (fun x => !decide (x.distance < 1e-9)) = _
    have hfirst : ¬(traverse 0 5).distance < 1e-9 := by
      rw [distance_traverse]
      norm_num
    have hsecond : (traverse 5 5.0000000001).distance < 1e-9 := by
      rw [distance_traverse, abs_of_nonneg (by norm_num)]
      norm_num
    have hthird : ¬(traverse 5 0).distance < 1e-9 := by
      rw [distance_traverse]
      norm_num
    simp [hfirst, hsecond, hthird]
  rw [hplanned] at hmotions
  obtain ⟨p, ps, hmoves, hp, hps⟩ := List.map_eq_cons_iff.1 hmotions
  obtain ⟨q, qs, rfl, hq, hqs⟩ := List.map_eq_cons_iff.1 hps
  obtain rfl := List.map_eq_nil_iff.1 hqs
  rw [hmoves] at hsampled hfirst hnext
  have hpBegin : p.1 = 0 := hfirst p rfl
  have hpTime : travelTime (usableAxes Machine.default.axes) p.2.motion = 0.01 := by
    rw [hp, travelTime_traverse]
    norm_num
  have hqTime : travelTime (usableAxes Machine.default.axes) q.2.motion = 0.01 := by
    rw [hq, travelTime_traverse]
    norm_num
  have hstep : (if true = true ∧ (0 : ℝ) < -1 then -1 else 0.005) = (0.005 : ℝ) :=
    if_neg (by norm_num)
  have hpSampled := (hsampled p List.mem_cons_self).2
  have hqSampled := (hsampled q (List.mem_cons_of_mem _ List.mem_cons_self)).2
  rw [hstep, hpTime, hp] at hpSampled
  rw [hstep, hqTime, hq] at hqSampled
  have hqBegin : q.1 = 0.01 := by
    have hend := (List.isChain_cons_cons.1 hnext).1
    rw [hpSampled.last_time, hpBegin, zero_add] at hend
    exact (Option.some.inj hend).symm
  refine ⟨p, q, hmoves, hpBegin, hqBegin, ?_, ?_⟩
  · rwa [hpBegin] at hpSampled ⊢
  · rwa [hqBegin] at hqSampled ⊢

end Trajectory

end Machining
