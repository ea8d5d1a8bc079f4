import Machining.Modal.Interpretation
import Machining.Program.Block
import Machining.Proofs.Double.Sum
import Machining.Trajectory.Plan

/-!
# The clock of a trajectory

The clock is one double to which the slices of all moves are added in turn.  It should move at
every sample.  A slice that is too short for the reading of the clock leaves it where it is, and
within a move a clock that stands still once stands still to the end of the move.  So a move keeps
the clock going exactly if its last slice does.

* `after` — the reading of the clock after some slices of one length;
* `leg?_eq_some_iff` — what is planned for a move;
* `isChain_samplesFrom_iff` — the clock moves at every sample of planned moves exactly if it moves
  at the last slice of each;
* `plan_increasing_iff` — the same for the trajectory of a command list;
* `plan_increasing_of_lt` — so it is wherever no reading holds `2 ^ 53` of the slices added to it.
-/

set_option autoImplicit false

namespace Machining

open Double (Advances Unsigned exact reading)

/-! ## Readings -/

namespace Leg

section Readings

variable {α : Type} [Scalar α]

/-- The reading of the clock `n` slices after `start`. -/
def after (slice start : α) : ℕ → α
  | 0 => start
  | n + 1 => after slice start n + slice

/-- The reading of the clock before the last slice of a move. -/
def beforeLast (l : Leg α) (start : α) : α := after l.slice start (l.slices - 1)

theorem clock_succ (slice start : α) (n : ℕ) :
    clock slice start (n + 1) = ((clock slice start n).headD start + slice) ::
      clock slice start n := by
  unfold clock
  rw [List.range_succ, List.foldl_append]
  rfl

theorem headD_clock (slice start : α) (n : ℕ) :
    (clock slice start n).headD start = after slice start n := by
  induction n with
  | zero => rfl
  | succ n ih => rw [clock_succ, List.headD_cons, ih, after]

theorem finish_eq (l : Leg α) (start : α) : l.finish start = after l.slice start l.slices :=
  headD_clock l.slice start l.slices

/-- The clock is read at the end of every slice. -/
theorem reverse_clock (slice start : α) (n : ℕ) : (clock slice start n).reverse =
    (List.range n).map fun k => after slice start (k + 1) := by
  induction n with
  | zero => rfl
  | succ n ih =>
    rw [clock_succ, List.reverse_cons, ih, headD_clock, List.range_succ, List.map_append]
    rfl

/-- The samples of a move: one for each slice, at the reading of the clock at its end. -/
theorem samples_eq (l : Leg α) (m : Machine α) (start : α) : l.samples m start =
    (List.range l.slices).map fun k => l.sample m (k + 1) (after l.slice start (k + 1)) := by
  unfold samples times
  rw [reverse_clock]
  refine List.ext_getElem (by simp) fun i h1 h2 => ?_
  simp

theorem map_time_samples (l : Leg α) (m : Machine α) (start : α) :
    (l.samples m start).map Sample.time =
      (List.range l.slices).map fun k => after l.slice start (k + 1) := by
  rw [samples_eq, List.map_map]
  rfl

/-- A relation links the readings of a move and what follows if it links every reading to the next
one, and the last one to what follows. -/
theorem isChain_after_iff (R : α → α → Prop) (slice start : α) (n : ℕ) (rest : List α) :
    (start :: ((List.range n).map (fun k => after slice start (k + 1)) ++ rest)).IsChain R ↔
      (∀ k < n, R (after slice start k) (after slice start (k + 1))) ∧
        (after slice start n :: rest).IsChain R := by
  induction n generalizing rest with
  | zero => simp [after]
  | succ n ih =>
    rw [List.range_succ, List.map_append, List.append_assoc, ih, List.map_singleton,
      List.singleton_append, List.isChain_cons_cons, ← and_assoc]
    refine and_congr_left fun _ => ?_
    simp only [Nat.lt_succ_iff_lt_or_eq, or_imp, forall_and, forall_eq]

end Readings

/-! ## Moves -/

section Doubles

variable {slice start : Float}

theorem unsigned_after (hslice : Unsigned (reading slice)) (hstart : Unsigned (reading start))
    (n : ℕ) : Unsigned (reading (after slice start n)) := by
  induction n with
  | zero => exact hstart
  | succ n ih => exact Double.unsigned_add ih hslice

/-- One slice moves the clock exactly if it advances the reading before it. -/
theorem after_lt_iff (hslice : Unsigned (reading slice)) (hstart : Unsigned (reading start))
    (n : ℕ) : after slice start n < after slice start (n + 1) ↔
      Advances (after slice start n) slice :=
  Double.lt_add_iff (unsigned_after hslice hstart n) hslice

/-- **The last slice tells**: the clock moves at every slice of a move exactly if it moves at the
last one. -/
theorem forall_after_lt_iff (hslice : Unsigned (reading slice))
    (hstart : Unsigned (reading start)) (n : ℕ) :
    (∀ k < n + 1, after slice start k < after slice start (k + 1)) ↔
      Advances (after slice start n) slice := by
  rw [← after_lt_iff hslice hstart]
  refine ⟨fun h => h n (Nat.lt_succ_self n), fun h => ?_⟩
  -- downwards from the last slice: a clock that moves after a slice has moved at that slice
  induction n with
  | zero =>
    intro k hk
    obtain rfl : k = 0 := by omega
    exact h
  | succ n ih =>
    have hbefore : after slice start n < after slice start (n + 1) := by
      rw [after_lt_iff hslice hstart] at h ⊢
      exact Double.advances_of_advances_add (unsigned_after hslice hstart n) hslice h
    intro k hk
    rcases Nat.lt_succ_iff_lt_or_eq.1 hk with hlt | rfl
    · exact ih hbefore k hlt
    · exact h

end Doubles

/-- A move as the planner leaves it: at least one slice, of a length that is not negative. -/
structure Planned (l : Leg Float) : Prop where
  slices_pos : 0 < l.slices
  unsigned_slice : Unsigned (reading l.slice)

end Leg

namespace Trajectory

section Moves

variable {α : Type} [Scalar α] {axes : Axes α} {step : α} {motion : Motion α} {l : Leg α}

/-- **What is planned for a move** that is not too short to count. -/
theorem leg?_eq_some_iff : leg? axes step motion = some l ↔
    ¬motion.distance < Kinematics.shortestMove ∧ l.motion = motion ∧
      l.feed = feed motion axes ∧
      l.duration = motion.distance / Scalar.greater (l.feed / 60) leastVelocity ∧
      l.slices = max (Scalar.ceilCount (l.duration / step)) 1 := by
  obtain ⟨motion', feed', duration, slices⟩ := l
  unfold leg?
  dsimp only
  rw [Option.ite_none_left_eq_some, Option.some.injEq, Leg.mk.injEq]
  refine and_congr_right fun _ => ?_
  constructor
  · rintro ⟨rfl, rfl, rfl, rfl⟩
    exact ⟨rfl, rfl, rfl, rfl⟩
  · rintro ⟨rfl, rfl, rfl, rfl⟩
    exact ⟨rfl, rfl, rfl, rfl⟩

theorem leg?_eq_none_iff :
    leg? axes step motion = none ↔ motion.distance < Kinematics.shortestMove := by
  unfold leg?
  dsimp only
  rw [ite_eq_left_iff]
  constructor
  · intro h
    by_contra hlong
    cases h hlong
  · intro hshort hlong
    exact absurd hshort hlong

/-- Every planned move has a slice, also where a quotient is undefined. -/
theorem slices_pos_of_leg? (h : leg? axes step motion = some l) : 0 < l.slices := by
  obtain ⟨-, -, -, -, hslices⟩ := leg?_eq_some_iff.1 h
  rw [hslices]
  exact lt_max_of_lt_right Nat.one_pos

end Moves

theorem unsigned_greater_leastVelocity (x : Float) :
    Unsigned (reading (Scalar.greater x leastVelocity)) := by
  have hpos : (0 : Float) < leastVelocity := by decide
  unfold Scalar.greater
  split
  · exact Double.unsigned_of_not_lt hpos (by decide)
  · rename_i h
    split
    · exact Double.unsigned_of_not_lt hpos h
    · exact Double.unsigned_of_not_lt hpos (by decide)

/-- Every move that counts is planned with slices, whatever its length and its feed. -/
theorem planned_of_leg? {axes : Axes Float} {step : Float} {motion : Motion Float} {l : Leg Float}
    (h : leg? axes step motion = some l) : l.Planned := by
  obtain ⟨hlong, -, -, hduration, -⟩ := leg?_eq_some_iff.1 h
  have hshortest : (0 : Float) < Kinematics.shortestMove := by decide
  have hdistance := Double.unsigned_of_not_lt hshortest hlong
  refine ⟨slices_pos_of_leg? h, ?_⟩
  rw [Leg.slice, hduration]
  exact Double.unsigned_div
    (Double.unsigned_div hdistance (unsigned_greater_leastVelocity _)) (Double.unsigned_ofCount _)

theorem planned_of_mem_legs {commands : List (Command Float)} {m : Machine Float} {step : Float}
    {l : Leg Float} (h : l ∈ legs commands m step) : l.Planned := by
  obtain ⟨motion, _, hl⟩ := List.mem_filterMap.1 h
  exact planned_of_leg? hl

/-- For each move the reading of the clock before its last slice, and the length of the slice. -/
def lastTicks : Float → List (Leg Float) → List (Float × Float)
  | _, [] => []
  | start, l :: ls => (l.beforeLast start, l.slice) :: lastTicks (l.finish start) ls

/-- The clock moves at every sample of planned moves exactly if the last slice of each move
advances it. -/
theorem isChain_samplesFrom_iff (m : Machine Float) {ls : List (Leg Float)}
    (hls : ∀ l ∈ ls, l.Planned) {start : Float} (hstart : Unsigned (reading start)) :
    (start :: (samplesFrom m start ls).map Sample.time).IsChain (· < ·) ↔
      ∀ x ∈ lastTicks start ls, Advances x.1 x.2 := by
  induction ls generalizing start with
  | nil => simp [samplesFrom, lastTicks]
  | cons l ls ih =>
    obtain ⟨hpos, hslice⟩ := hls l List.mem_cons_self
    obtain ⟨n, hn⟩ : ∃ n, l.slices = n + 1 := ⟨l.slices - 1, by omega⟩
    have hfinish := Leg.unsigned_after hslice hstart l.slices
    rw [samplesFrom, List.map_append, Leg.map_time_samples, Leg.isChain_after_iff, Leg.finish_eq,
      ih (fun l' hl' => hls l' (List.mem_cons_of_mem _ hl')) hfinish, lastTicks,
      List.forall_mem_cons, Leg.finish_eq, Leg.beforeLast, hn, Nat.add_sub_cancel,
      Leg.forall_after_lt_iff hslice hstart]

/-- **When timestamps increase**: the samples of a trajectory have times above zero and strictly
increasing exactly if the last slice of every move advances the clock that it finds. -/
theorem plan_increasing_iff (commands : List (Command Float)) (m : Machine Float) (step : Float) :
    (0 :: (plan commands m step).map Sample.time).IsChain (· < ·) ↔
      ∀ x ∈ lastTicks 0 (legs commands m step), Advances x.1 x.2 :=
  isChain_samplesFrom_iff m (fun _ hl => planned_of_mem_legs hl) Double.unsigned_zero

/-- The clock stands still in a short move after a long one. -/
theorem plan_standsStill :
    ¬(0 :: (plan (Interpretation.ofBlocks
      (Program.parse "G1 X1000000 F1\nY0.000000002 F60000")).commands Machine.default 1e9).map
        Sample.time).IsChain (· < ·) := by
  decide +kernel

theorem unsigned_of_mem_lastTicks {ls : List (Leg Float)} (hls : ∀ l ∈ ls, l.Planned)
    {start : Float} (hstart : Unsigned (reading start)) {x : Float × Float}
    (hx : x ∈ lastTicks start ls) : Unsigned (reading x.1) ∧ Unsigned (reading x.2) := by
  induction ls generalizing start with
  | nil => cases hx
  | cons l ls ih =>
    have hslice := (hls l List.mem_cons_self).unsigned_slice
    rw [lastTicks] at hx
    rcases List.mem_cons.1 hx with rfl | hx
    · exact ⟨Leg.unsigned_after hslice hstart _, hslice⟩
    · rw [Leg.finish_eq] at hx
      exact ih (fun l' hl' => hls l' (List.mem_cons_of_mem _ hl'))
        (Leg.unsigned_after hslice hstart _) hx

/-- Timestamps increase where all readings and slices are finite and no reading holds `2 ^ 53` of
the slices added to it. -/
theorem plan_increasing_of_lt {commands : List (Command Float)} {m : Machine Float} {step : Float}
    (h : ∀ x ∈ lastTicks 0 (legs commands m step), x.1.isFinite = true ∧ x.2.isFinite = true ∧
      exact x.1 < 2 ^ 53 * exact x.2) :
    (0 :: (plan commands m step).map Sample.time).IsChain (· < ·) := by
  have hls : ∀ l ∈ legs commands m step, l.Planned := fun _ hl => planned_of_mem_legs hl
  refine (isChain_samplesFrom_iff m hls Double.unsigned_zero).2 fun x hx => ?_
  obtain ⟨hclock, hslice⟩ := unsigned_of_mem_lastTicks hls Double.unsigned_zero hx
  obtain ⟨hclockFinite, hsliceFinite, hlt⟩ := h x hx
  exact Double.advances_of_exact_lt hclock hslice hclockFinite hsliceFinite hlt

end Trajectory

end Machining
