import Machining.Proofs.Geometry.Distance
import Machining.Trajectory.Stats

/-!
# Booked times and distances

Statistics book one interval and one segment for each sample of a trajectory.  Both reach back to
the sample before, and the mode of the later sample decides under which of two heads they fall.  So
with exact arithmetic nothing is lost: what the two heads hold adds up to the time of the last
sample and to the length of the path.

* `links` — the samples, each with the one before it;
* `TrajectoryStats.bookAll_eq_foldl` — every link is booked once;
* `TrajectoryStats.under_bookAll` — what each head holds;
* `sum_duration_links`, `sum_pathLength_links` — what all links add up to;
* `TrajectoryStats.under_append` — what appended samples add;
* `TrajectoryStats.ofSamples_conserves` — the whole statement for a list of samples.
-/

set_option autoImplicit false

namespace Machining

/-! ## Links -/

/-- A sample with the one before it, if there is one. -/
structure Link (α : Type) where
  previous : Option (Sample α)
  sample : Sample α

section Any

variable {α : Type}

/-- The samples of a trajectory, each with the sample before it; `p` comes before the first. -/
def links (p : Option (Sample α)) (xs : List (Sample α)) : List (Link α) :=
  List.zipWith Link.mk (p :: xs.map some) xs

theorem links_cons (p : Option (Sample α)) (x : Sample α) (xs : List (Sample α)) :
    links p (x :: xs) = ⟨p, x⟩ :: links (some x) xs := rfl

theorem links_append (p : Option (Sample α)) (xs ys : List (Sample α)) :
    links p (xs ++ ys) = links p xs ++ links (xs.getLast?.or p) ys := by
  induction xs generalizing p with
  | nil => rfl
  | cons x xs ih =>
    rw [List.cons_append, links_cons, links_cons, ih, List.cons_append]
    congr 3
    cases xs with
    | nil => rfl
    | cons y ys => rw [List.getLast?_cons_cons, List.getLast?_cons, Option.some_or, Option.some_or]

variable [Scalar α]

/-- The time that a trajectory has come to; zero before the first sample. -/
def clockOf (p : Option (Sample α)) : α := (p.map Sample.time).getD 0

namespace Link

/-- The time from one sample to the next. -/
def duration (l : Link α) : α := l.sample.time - clockOf l.previous

/-- The way from one sample to the next; none to the first. -/
def pathLength (l : Link α) : α :=
  (l.previous.map fun p => p.position.distance l.sample.position).getD 0

end Link

namespace TrajectoryStats

theorem bookAll_cons (s : TrajectoryStats α) (p : Option (Sample α)) (x : Sample α)
    (xs : List (Sample α)) : bookAll s p (x :: xs) =
      bookAll (s.book x (Link.mk p x).duration (Link.mk p x).pathLength) (some x) xs := by
  cases p <;> rfl

/-- **Every link is booked once**, under the mode of its later sample. -/
theorem bookAll_eq_foldl (s : TrajectoryStats α) (p : Option (Sample α)) (xs : List (Sample α)) :
    bookAll s p xs = (links p xs).foldl (fun s l => s.book l.sample l.duration l.pathLength) s := by
  induction xs generalizing s p with
  | nil => cases p <;> rfl
  | cons x xs ih => rw [bookAll_cons, ih, links_cons, List.foldl_cons]

end TrajectoryStats

end Any

/-! ## Heads -/

/-- What the links under one head add up to: those whose later sample is rapid, or all others. -/
noncomputable def booked (rapid : Bool) (f : Link ℝ → ℝ) (ls : List (Link ℝ)) : ℝ :=
  ((ls.filter fun l => l.sample.motionMode.isRapid == rapid).map f).sum

section Heads

variable (rapid : Bool) (f : Link ℝ → ℝ) (l : Link ℝ) (ls ms : List (Link ℝ))

theorem booked_cons : booked rapid f (l :: ls) =
    (if l.sample.motionMode.isRapid = rapid then f l else 0) + booked rapid f ls := by
  unfold booked
  by_cases h : l.sample.motionMode.isRapid = rapid
  · simp [h]
  · simp [h]

theorem booked_append : booked rapid f (ls ++ ms) = booked rapid f ls + booked rapid f ms := by
  simp [booked]

/-- **Each link falls under one of the two heads.** -/
theorem booked_true_add_false : booked true f ls + booked false f ls = (ls.map f).sum := by
  induction ls with
  | nil => simp [booked]
  | cons l ls ih =>
    rw [booked_cons, booked_cons, List.map_cons, List.sum_cons, ← ih]
    cases l.sample.motionMode.isRapid with
    | false =>
      simp only [Bool.false_eq_true, if_false, if_true]
      ring
    | true =>
      simp only [Bool.true_eq_false, if_false, if_true]
      ring

end Heads

/-! ## Whole trajectories -/

theorem clockOf_real (p : Option (Sample ℝ)) : clockOf p = (p.map Sample.time).getD 0 := by
  unfold clockOf
  rw [Scalar.zero_real]

/-- **The durations telescope**: they add up to the time that passes over all samples. -/
theorem sum_duration_links (p : Option (Sample ℝ)) (xs : List (Sample ℝ)) :
    ((links p xs).map Link.duration).sum = clockOf (xs.getLast?.or p) - clockOf p := by
  induction xs generalizing p with
  | nil => simp [links]
  | cons x xs ih =>
    have hlast : (x :: xs).getLast?.or p = xs.getLast?.or (some x) := by
      rw [List.getLast?_cons]
      cases xs.getLast? <;> rfl
    have hclock : clockOf (some x) = x.time := rfl
    rw [links_cons, List.map_cons, List.sum_cons, ih, hlast, Link.duration, hclock]
    ring

/-- The segments of a path are the ways between consecutive samples. -/
theorem sum_pathLength_links (xs : List (Sample ℝ)) : ((links none xs).map Link.pathLength).sum =
    (List.zipWith (fun a b => a.position.distance b.position) xs xs.tail).sum := by
  cases xs with
  | nil => rfl
  | cons x xs =>
    have hfirst : (Link.mk none x).pathLength = 0 := Scalar.zero_real
    have hrest : (links (some x) xs).map Link.pathLength =
        List.zipWith (fun a b => a.position.distance b.position) (x :: xs) xs := by
      rw [links, ← List.map_cons, List.map_zipWith, List.zipWith_map_left]
      rfl
    rw [links_cons, List.map_cons, List.sum_cons, hfirst, zero_add, hrest, List.tail_cons]

namespace TrajectoryStats

/-- The time under one head. -/
def timeUnder (s : TrajectoryStats ℝ) : Bool → ℝ
  | true => s.rapidTime
  | false => s.feedTime

/-- The path length under one head. -/
def distanceUnder (s : TrajectoryStats ℝ) : Bool → ℝ
  | true => s.rapidDistance
  | false => s.feedDistance

/-- Booking an interval and a segment adds to one head and leaves the other as it is. -/
theorem under_book (s : TrajectoryStats ℝ) (x : Sample ℝ) (dt ds : ℝ) (rapid : Bool) :
    (s.book x dt ds).timeUnder rapid =
        s.timeUnder rapid + (if x.motionMode.isRapid = rapid then dt else 0) ∧
      (s.book x dt ds).distanceUnder rapid =
        s.distanceUnder rapid + (if x.motionMode.isRapid = rapid then ds else 0) := by
  unfold book
  cases hmode : x.motionMode.isRapid <;> cases rapid <;> simp [timeUnder, distanceUnder]

/-- **What a head holds** after some links are booked. -/
theorem under_bookAll (s : TrajectoryStats ℝ) (p : Option (Sample ℝ)) (xs : List (Sample ℝ))
    (rapid : Bool) :
    (bookAll s p xs).timeUnder rapid = s.timeUnder rapid + booked rapid Link.duration (links p xs) ∧
      (bookAll s p xs).distanceUnder rapid =
        s.distanceUnder rapid + booked rapid Link.pathLength (links p xs) := by
  rw [bookAll_eq_foldl]
  generalize links p xs = ls
  induction ls generalizing s with
  | nil => simp [booked]
  | cons l ls ih =>
    obtain ⟨htime, hdistance⟩ := s.under_book l.sample l.duration l.pathLength rapid
    rw [List.foldl_cons, (ih _).1, (ih _).2, htime, hdistance, booked_cons, booked_cons, add_assoc,
      add_assoc]
    exact ⟨rfl, rfl⟩

theorem maxFeed_book (s : TrajectoryStats ℝ) (x : Sample ℝ) (dt ds : ℝ) :
    (s.book x dt ds).maxFeed = max s.maxFeed x.feed := by
  unfold book
  rw [← Scalar.greater_real]
  cases x.motionMode.isRapid <;> rfl

/-- The greatest feed is that of a sample, unless none exceeds the one before. -/
theorem isGreatest_maxFeed (s : TrajectoryStats ℝ) (p : Option (Sample ℝ))
    (xs : List (Sample ℝ)) :
    IsGreatest {v | v ∈ s.maxFeed :: xs.map Sample.feed} (bookAll s p xs).maxFeed := by
  induction xs generalizing s p with
  | nil =>
    have hnone : (bookAll s p []).maxFeed = s.maxFeed := by cases p <;> rfl
    rw [hnone]
    simp
  | cons x xs ih =>
    obtain ⟨hmem, hle⟩ := ih (s.book x (Link.mk p x).duration (Link.mk p x).pathLength) (some x)
    rw [bookAll_cons]
    generalize (bookAll _ (some x) xs).maxFeed = v at hmem hle
    rw [maxFeed_book] at hmem hle
    have hmax : max s.maxFeed x.feed ≤ v := hle List.mem_cons_self
    constructor
    · rcases List.mem_cons.1 hmem with rfl | hlater
      · rcases max_choice s.maxFeed x.feed with h | h
        · simp [h]
        · simp [h]
      · exact List.mem_cons_of_mem _ (List.mem_cons_of_mem _ hlater)
    · intro w hw
      rcases List.mem_cons.1 hw with rfl | hw
      · exact (le_max_left _ _).trans hmax
      rcases List.mem_cons.1 hw with rfl | hlater
      · exact (le_max_right _ _).trans hmax
      · exact hle (List.mem_cons_of_mem _ hlater)

/-- Statistics begin with nothing under either head. -/
theorem under_ofSamples (xs : List (Sample ℝ)) (rapid : Bool) :
    (ofSamples xs).timeUnder rapid = booked rapid Link.duration (links none xs) ∧
      (ofSamples xs).distanceUnder rapid = booked rapid Link.pathLength (links none xs) := by
  have hzero : (zero : TrajectoryStats ℝ).timeUnder rapid = 0 ∧
      (zero : TrajectoryStats ℝ).distanceUnder rapid = 0 := by
    cases rapid <;> exact ⟨Scalar.zero_real, Scalar.zero_real⟩
  have hbooked := under_bookAll zero none xs rapid
  rw [hzero.1, hzero.2, zero_add, zero_add] at hbooked
  cases rapid <;> exact hbooked

theorem totalTime_eq (xs : List (Sample ℝ)) :
    (ofSamples xs).totalTime = (xs.getLast?.map Sample.time).getD 0 :=
  clockOf_real xs.getLast?

/-- The times under the two heads add up to the time of the last sample. -/
theorem rapidTime_add_feedTime (xs : List (Sample ℝ)) :
    (ofSamples xs).rapidTime + (ofSamples xs).feedTime = (ofSamples xs).totalTime := by
  have hstart : clockOf (none : Option (Sample ℝ)) = 0 := Scalar.zero_real
  calc (ofSamples xs).rapidTime + (ofSamples xs).feedTime
      = booked true Link.duration (links none xs) + booked false Link.duration (links none xs) :=
        congrArg₂ (· + ·) (under_ofSamples xs true).1 (under_ofSamples xs false).1
    _ = ((links none xs).map Link.duration).sum := booked_true_add_false _ _
    _ = clockOf xs.getLast? := by rw [sum_duration_links, hstart, sub_zero, Option.or_none]
    _ = (ofSamples xs).totalTime := rfl

/-- The path lengths under the two heads add up to the length of the path. -/
theorem totalDistance_eq (xs : List (Sample ℝ)) : (ofSamples xs).totalDistance =
    (List.zipWith (fun a b => a.position.distance b.position) xs xs.tail).sum := by
  calc (ofSamples xs).totalDistance
      = (ofSamples xs).rapidDistance + (ofSamples xs).feedDistance := add_comm _ _
    _ = booked true Link.pathLength (links none xs) +
          booked false Link.pathLength (links none xs) :=
        congrArg₂ (· + ·) (under_ofSamples xs true).2 (under_ofSamples xs false).2
    _ = ((links none xs).map Link.pathLength).sum := booked_true_add_false _ _
    _ = _ := sum_pathLength_links xs

/-- **What appended samples add to a head** is measured from the last sample before them. -/
theorem under_append (xs : List (Sample ℝ)) (p : Sample ℝ) (ys : List (Sample ℝ)) (rapid : Bool) :
    (ofSamples (xs ++ [p] ++ ys)).timeUnder rapid =
        (ofSamples (xs ++ [p])).timeUnder rapid +
          booked rapid Link.duration (links (some p) ys) ∧
      (ofSamples (xs ++ [p] ++ ys)).distanceUnder rapid =
        (ofSamples (xs ++ [p])).distanceUnder rapid +
          booked rapid Link.pathLength (links (some p) ys) := by
  have hlinks : links none (xs ++ [p] ++ ys) = links none (xs ++ [p]) ++ links (some p) ys := by
    rw [links_append, List.getLast?_concat, Option.some_or]
  obtain ⟨htime, hdistance⟩ := under_ofSamples (xs ++ [p]) rapid
  obtain ⟨htime', hdistance'⟩ := under_ofSamples (xs ++ [p] ++ ys) rapid
  rw [hlinks, booked_append, ← htime] at htime'
  rw [hlinks, booked_append, ← hdistance] at hdistance'
  exact ⟨htime', hdistance'⟩

/-- **Statistics conserve time and distance**, read with exact arithmetic, whatever the samples
are.  The times under the two heads add up to the time of the last sample, and the path lengths to
that of the whole path; each interval and each segment falls under the head of its later sample,
the first interval, which begins at zero, under that of the first sample; and the greatest feed is
the greatest of zero and all feeds.  Where samples are appended, each head gets what they add,
measured from the last sample before them. -/
theorem ofSamples_conserves :
    (∀ xs : List (Sample ℝ),
      ((ofSamples xs).rapidTime + (ofSamples xs).feedTime = (ofSamples xs).totalTime ∧
        (ofSamples xs).totalTime = (xs.getLast?.map Sample.time).getD 0) ∧
      (ofSamples xs).totalDistance =
        (List.zipWith (fun a b => a.position.distance b.position) xs xs.tail).sum ∧
      ((ofSamples xs).rapidTime = booked true Link.duration (links none xs) ∧
        (ofSamples xs).feedTime = booked false Link.duration (links none xs) ∧
        (ofSamples xs).rapidDistance = booked true Link.pathLength (links none xs) ∧
        (ofSamples xs).feedDistance = booked false Link.pathLength (links none xs)) ∧
      IsGreatest {v | v ∈ 0 :: xs.map Sample.feed} (ofSamples xs).maxFeed) ∧
    ∀ (xs : List (Sample ℝ)) (p : Sample ℝ) (ys : List (Sample ℝ)),
      let before := ofSamples (xs ++ [p])
      let whole := ofSamples (xs ++ [p] ++ ys)
      whole.rapidTime = before.rapidTime + booked true Link.duration (links (some p) ys) ∧
      whole.feedTime = before.feedTime + booked false Link.duration (links (some p) ys) ∧
      whole.rapidDistance =
        before.rapidDistance + booked true Link.pathLength (links (some p) ys) ∧
      whole.feedDistance =
        before.feedDistance + booked false Link.pathLength (links (some p) ys) := by
  constructor
  · intro xs
    obtain ⟨hrapidTime, hrapidDistance⟩ := under_ofSamples xs true
    obtain ⟨hfeedTime, hfeedDistance⟩ := under_ofSamples xs false
    have hfeeds := isGreatest_maxFeed zero none xs
    have hstart : (zero : TrajectoryStats ℝ).maxFeed = 0 := Scalar.zero_real
    rw [hstart] at hfeeds
    exact ⟨⟨rapidTime_add_feedTime xs, totalTime_eq xs⟩, totalDistance_eq xs,
      ⟨hrapidTime, hfeedTime, hrapidDistance, hfeedDistance⟩, hfeeds⟩
  · intro xs p ys before whole
    obtain ⟨hrapidTime, hrapidDistance⟩ := under_append xs p ys true
    obtain ⟨hfeedTime, hfeedDistance⟩ := under_append xs p ys false
    exact ⟨hrapidTime, hfeedTime, hrapidDistance, hfeedDistance⟩

end TrajectoryStats

end Machining
