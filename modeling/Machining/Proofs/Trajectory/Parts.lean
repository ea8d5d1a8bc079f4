import Machining.Proofs.Trajectory.Velocity

/-!
# Trajectories in parts

Of all that is planned only the clock runs on from move to move, and only moves that count turn it.
So a command list can be cut anywhere: the first part is planned as if nothing followed, and the
second as if it came first, but for its times.  Commands that do not count can stand anywhere in
between.

* `samplesFrom_append`, `untimed_samplesFrom` — planned moves, cut in two and begun at any time;
* `legs_filter_isPlanned` — commands that do not count are not planned;
* `samples_ne_nil_of_leg?` — a move that counts has a sample;
* `plan_inParts` — the whole statement for a command list.
-/

set_option autoImplicit false

namespace Machining

variable {α : Type} [Scalar α]

/-- The sample with its time set back. -/
def Sample.untimed (s : Sample α) : Sample α := { s with time := 0 }

/-- The command is a move that is not too short to count. -/
def Command.isPlanned : Command α → Bool
  | .motion x => !decide (x.distance < Kinematics.shortestMove)
  | _ => false

/-! ## Cutting and shifting -/

namespace Leg

/-- The samples of a move depend on its begin by their times alone. -/
theorem untimed_samples (l : Leg α) (m : Machine α) (start start' : α) :
    (l.samples m start).map Sample.untimed = (l.samples m start').map Sample.untimed := by
  rw [samples_eq, samples_eq, List.map_map, List.map_map]
  rfl

end Leg

namespace Trajectory

/-- The time at which planned moves end, the first of which begins at the given time. -/
def finishFrom (start : α) (ls : List (Leg α)) : α := ls.foldl (fun t l => l.finish t) start

/-- **Planned moves cut in two**: the second part begins when the first one ends. -/
theorem samplesFrom_append (m : Machine α) (ls ks : List (Leg α)) : ∀ start : α,
    samplesFrom m start (ls ++ ks) =
      samplesFrom m start ls ++ samplesFrom m (finishFrom start ls) ks := by
  induction ls with
  | nil => exact fun _ => rfl
  | cons l ls ih =>
    intro start
    rw [List.cons_append, samplesFrom, samplesFrom, ih, List.append_assoc]
    rfl

/-- **Only times depend on the begin.** -/
theorem untimed_samplesFrom (m : Machine α) (ls : List (Leg α)) : ∀ start start' : α,
    (samplesFrom m start ls).map Sample.untimed =
      (samplesFrom m start' ls).map Sample.untimed := by
  induction ls with
  | nil => exact fun _ _ => rfl
  | cons l ls ih =>
    intro start start'
    rw [samplesFrom, samplesFrom, List.map_append, List.map_append,
      l.untimed_samples m start start', ih (l.finish start) (l.finish start')]

/-! ## Commands that count -/

theorem legs_append (cs ds : List (Command α)) (m : Machine α) (step : α) :
    legs (cs ++ ds) m step = legs cs m step ++ legs ds m step := by
  unfold legs
  rw [List.filterMap_append, List.filterMap_append]

theorem bind_leg?_of_not_isPlanned (axes : Axes α) (step : α) {c : Command α}
    (hc : c.isPlanned = false) : c.motion?.bind (leg? axes step) = none := by
  cases c with
  | motion x =>
    have hshort : x.distance < Kinematics.shortestMove := by
      simpa [Command.isPlanned] using hc
    exact leg?_eq_none_iff.2 hshort
  | toolChange tool block line => rfl
  | snapshot state block line => rfl

/-- **Commands that do not count** can be left out. -/
theorem legs_filter_isPlanned (cs : List (Command α)) (m : Machine α) (step : α) :
    legs (cs.filter Command.isPlanned) m step = legs cs m step := by
  unfold legs
  simp only [List.filterMap_filterMap]
  rw [List.filterMap_filter]
  refine List.filterMap_congr fun c _ => ?_
  by_cases hc : c.isPlanned = true
  · rw [if_pos hc]
  · rw [Bool.not_eq_true] at hc
    rw [hc, if_neg Bool.false_ne_true, bind_leg?_of_not_isPlanned _ _ hc]

/-- **A move that counts has a sample**, whatever its length and its feed. -/
theorem samples_ne_nil_of_leg? {axes : Axes α} {step : α} {motion : Motion α} {l : Leg α}
    (h : leg? axes step motion = some l) (m : Machine α) (start : α) : l.samples m start ≠ [] := by
  rw [Leg.samples_eq, ne_eq, List.map_eq_nil_iff, List.range_eq_nil]
  exact (slices_pos_of_leg? h).ne'

theorem plan_append (cs ds : List (Command α)) (m : Machine α) (step : α) :
    plan (cs ++ ds) m step = plan cs m step ++
      samplesFrom m (finishFrom 0 (legs cs m step)) (legs ds m step) := by
  unfold plan
  rw [legs_append, samplesFrom_append]

theorem plan_filter_isPlanned (cs : List (Command α)) (m : Machine α) (step : α) :
    plan (cs.filter Command.isPlanned) m step = plan cs m step := by
  unfold plan
  rw [legs_filter_isPlanned]

/-- The moves that count, in the order of the commands. -/
theorem map_motion_moves_filter (cs : List (Command α)) (m : Machine α) (step : α) :
    (moves cs m step).map (fun p => p.2.motion) =
      (cs.filter Command.isPlanned).filterMap Command.motion? := by
  rw [map_motion_moves, List.filter_filterMap, List.filterMap_filter]
  refine List.filterMap_congr fun c _ => ?_
  cases c with
  | motion x => simp [Command.motion?, Command.isPlanned, Option.filter]
  | toolChange tool block line => rfl
  | snapshot state block line => rfl

theorem plan_eq_flatMap (cs : List (Command α)) (m : Machine α) (step : α) :
    plan cs m step = (moves cs m step).flatMap fun p => p.2.samples m p.1 := by
  have hsamples := samplesFrom_eq_flatMap m (legs cs m step) 0
  simp only [Leg.map_snd_stretches] at hsamples
  exact hsamples

/-- **Planning is incremental.**  What is planned for some commands stays as it is when others
follow, and those are planned as if they came first, but for their times.  Tool changes, snapshots
and moves that are too short to count can be put in and taken out anywhere without a change.  Each
other move has its own samples, at least one, in one piece and in the order of the commands. -/
theorem plan_inParts (m : Machine α) (step : α) :
    (∀ cs ds : List (Command α), ∃ rest, plan (cs ++ ds) m step = plan cs m step ++ rest ∧
      rest.map Sample.untimed = (plan ds m step).map Sample.untimed) ∧
    (∀ cs ds : List (Command α), cs.filter Command.isPlanned = ds.filter Command.isPlanned →
      plan cs m step = plan ds m step) ∧
    ∀ cs : List (Command α),
      (moves cs m step).map (fun p => p.2.motion) =
        (cs.filter Command.isPlanned).filterMap Command.motion? ∧
      plan cs m step = (moves cs m step).flatMap (fun p => p.2.samples m p.1) ∧
      ∀ p ∈ moves cs m step, p.2.samples m p.1 ≠ [] ∧
        ∀ s ∈ p.2.samples m p.1, s.block = p.2.motion.block ∧ s.line = p.2.motion.line := by
  refine ⟨?cut, ?skip, ?moves⟩
  case cut =>
    intro cs ds
    exact ⟨_, plan_append cs ds m step, untimed_samplesFrom m (legs ds m step) _ 0⟩
  case skip =>
    intro cs ds h
    rw [← plan_filter_isPlanned cs, h, plan_filter_isPlanned]
  case moves =>
    intro cs
    refine ⟨map_motion_moves_filter cs m step, plan_eq_flatMap cs m step, fun p hp => ?_⟩
    obtain ⟨motion, -, hplanned⟩ := List.mem_filterMap.1 (mem_legs_of_mem_moves hp)
    refine ⟨samples_ne_nil_of_leg? hplanned m p.1, ?_⟩
    intro s hs
    rw [Leg.samples_eq] at hs
    obtain ⟨k, -, rfl⟩ := List.mem_map.1 hs
    exact ⟨rfl, rfl⟩

/-- A feed move in doubles along X, from one coordinate to another. -/
def feedMove (start target : Float) (block : Nat) : Motion Float :=
  ⟨.linear, .xy, ⟨start, 0, 0⟩, ⟨target, 0, 0⟩, none, 600, 0, .off, "G54", block, block + 1⟩

/-- Two moves, the second one of undefined length, planned alone and among commands that do not
count. -/
theorem plan_inParts_withPauses :
    let cs : List (Command Float) := [.motion (feedMove 0 5 0), .motion (feedMove 5 (0 / 0) 3)]
    let ds : List (Command Float) := [.toolChange 2 0 1, .motion (feedMove 0 5 0),
      .motion (feedMove 5 5.0000000001 1), .snapshot .powerOn 2 3,
      .motion (feedMove 5 (0 / 0) 3)]
    cs.filter Command.isPlanned = ds.filter Command.isPlanned ∧
      plan cs Machine.default 0.5 = plan ds Machine.default 0.5 ∧
      (moves ds Machine.default 0.5).map (fun p => p.2.motion) =
        [feedMove 0 5 0, feedMove 5 (0 / 0) 3] ∧
      ∀ p ∈ moves ds Machine.default 0.5, p.2.samples Machine.default p.1 ≠ [] := by
  intro cs ds
  have hsame : cs.filter Command.isPlanned = ds.filter Command.isPlanned := by decide +kernel
  obtain ⟨-, hskip, hparts⟩ := plan_inParts (Machine.default : Machine Float) 0.5
  obtain ⟨hmoves, -, hsamples⟩ := hparts ds
  refine ⟨hsame, hskip cs ds hsame, hmoves.trans (by decide +kernel), ?_⟩
  intro p hp
  exact (hsamples p hp).1

end Trajectory

end Machining
