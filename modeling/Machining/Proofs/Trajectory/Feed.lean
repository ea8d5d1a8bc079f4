import Machining.Proofs.Geometry.Distance
import Machining.Trajectory.Kinematics

/-!
# The limited feed

On a straight move each axis takes its share of the path velocity.  The feed of a move is limited so
that no moving axis exceeds its velocity; an axis that stands still has no share and no say.  Each
moving axis sets a ceiling for the path velocity, a move that counts has at least one of them, and
the limited feed is the least of the ceilings and of the feed that is desired.

* `Kinematics.mem_ceilings` — one ceiling for each moving axis;
* `Kinematics.Admits` — the feeds that neither the desired one nor an axis forbids;
* `Kinematics.le_limitFeed_iff_admits` — they are the feeds up to the limited one;
* `Kinematics.limitFeed_greatest` — the limited feed is the greatest that is admitted, whatever the
  signs of the velocities, and neither the axes that stand still nor the sense of the move matter.
-/

set_option autoImplicit false

namespace Machining.Kinematics

/-! ## Ceilings -/

theorem mem_ceilings (delta : Point ℝ) (a : Axes ℝ) (c : ℝ) : c ∈ ceilings delta a ↔
    ∃ i, 0 < delta.along i ∧
      c = (a.limits i).maxVelocity * delta.length / delta.along i := by
  have hceiling (d u v : ℝ) : ceiling? d u v = some c ↔ 0 < u ∧ c = v * d / u := by
    unfold ceiling?
    dsimp only
    rw [Scalar.zero_real, Option.ite_none_right_eq_some, Option.some.injEq,
      eq_comm, and_iff_left le_rfl]
  rw [Axis.exists_iff]
  unfold ceilings
  simp only [List.mem_filterMap, List.mem_cons, List.not_mem_nil, or_false, exists_eq_or_imp,
    exists_eq_left, hceiling]
  rfl

/-- The least of some numbers is bounded below by what bounds all of them. -/
theorem le_foldl_lesser_iff (x c : ℝ) (cs : List ℝ) :
    x ≤ cs.foldl Scalar.lesser c ↔ ∀ y ∈ c :: cs, x ≤ y := by
  induction cs generalizing c with
  | nil => simp
  | cons d cs ih =>
    rw [List.foldl_cons, ih, Scalar.lesser_real]
    simp only [List.forall_mem_cons, le_min_iff, and_assoc]

theorem shortestMove_pos : (0 : ℝ) < shortestMove := by
  unfold shortestMove
  norm_num

variable {start target : Point ℝ} {a b : Axes ℝ} {desired x : ℝ}

/-- A move that counts has a ceiling. -/
theorem ceilings_ne_nil (hlong : shortestMove ≤ start.distance target) (a : Axes ℝ) :
    ceilings (target - start).magnitude a ≠ [] := by
  obtain ⟨i, hi⟩ := Point.exists_along_ne start target (shortestMove_pos.trans_le hlong)
  rw [← Point.along_sub, ← Point.along_magnitude] at hi
  exact List.ne_nil_of_mem ((mem_ceilings _ a _).2 ⟨i, hi, rfl⟩)

/-- The limited feed is the least of the desired one and of the ceilings. -/
theorem le_limitFeed_iff_ceilings (hlong : shortestMove ≤ start.distance target) :
    x ≤ limitFeed start target desired a ↔
      x ≤ desired ∧ ∀ c ∈ ceilings (target - start).magnitude a, x / 60 ≤ c := by
  obtain ⟨c, cs, hcons⟩ := List.exists_cons_of_ne_nil (ceilings_ne_nil hlong a)
  unfold limitFeed
  dsimp only
  rw [Point.length_magnitude_sub, if_neg (not_lt.2 hlong), hcons]
  dsimp only
  rw [Scalar.lesser_real, Scalar.ofNat_real, ← div_le_iff₀ (by norm_num), le_min_iff,
    le_foldl_lesser_iff, div_le_div_iff_of_pos_right (by norm_num)]

/-! ## Admitted feeds -/

/-- The feed is not above the desired one, and at its path velocity no moving axis exceeds its
limit. -/
structure Admits (start target : Point ℝ) (desired : ℝ) (a : Axes ℝ) (feed : ℝ) : Prop where
  le_desired : feed ≤ desired
  along_le : ∀ i, target.along i - start.along i ≠ 0 →
    feed / 60 * |target.along i - start.along i| / start.distance target ≤
      (a.limits i).maxVelocity

/-- **The feeds up to the limited one are admitted**, and no others. -/
theorem le_limitFeed_iff_admits (hlong : shortestMove ≤ start.distance target) :
    x ≤ limitFeed start target desired a ↔ Admits start target desired a x := by
  have hpos : 0 < start.distance target := shortestMove_pos.trans_le hlong
  -- a share of the path velocity is bounded as the path velocity is by the ceiling
  have hshare {s v : ℝ} (hs : 0 < s) :
      x / 60 ≤ v * start.distance target / s ↔ x / 60 * s / start.distance target ≤ v := by
    rw [le_div_iff₀ hs, div_le_iff₀ hpos]
  rw [le_limitFeed_iff_ceilings hlong]
  simp only [mem_ceilings, Point.along_magnitude, Point.along_sub, Point.length_magnitude_sub]
  constructor
  · rintro ⟨hdesired, hceilings⟩
    refine ⟨hdesired, fun i hi => ?_⟩
    have hmoves := abs_pos.2 hi
    exact (hshare hmoves).1 (hceilings _ ⟨i, hmoves, rfl⟩)
  · rintro ⟨hdesired, halong⟩
    refine ⟨hdesired, ?_⟩
    rintro c ⟨i, hmoves, rfl⟩
    exact (hshare hmoves).2 (halong i (abs_pos.1 hmoves))

/-- Only the velocities of the moving axes matter. -/
theorem Admits.of_moving (h : Admits start target desired a x)
    (hab : ∀ i, target.along i - start.along i ≠ 0 →
      (a.limits i).maxVelocity = (b.limits i).maxVelocity) : Admits start target desired b x :=
  ⟨h.le_desired, fun i hi => (h.along_le i hi).trans_eq (hab i hi)⟩

/-- With velocities that are not negative, the axes that stand still may be asked as well: they
have nothing to exceed. -/
theorem le_limitFeed_iff (hlong : shortestMove ≤ start.distance target)
    (hv : ∀ i, 0 ≤ (a.limits i).maxVelocity) (x desired : ℝ) :
    x ≤ limitFeed start target desired a ↔ x ≤ desired ∧
      ∀ i, |target.along i - start.along i| * (x / 60) ≤
        (a.limits i).maxVelocity * start.distance target := by
  have hpos : 0 < start.distance target := shortestMove_pos.trans_le hlong
  rw [le_limitFeed_iff_admits hlong]
  constructor
  · rintro ⟨hdesired, halong⟩
    refine ⟨hdesired, fun i => ?_⟩
    by_cases hi : target.along i - start.along i = 0
    · rw [hi, abs_zero, zero_mul]
      exact mul_nonneg (hv i) hpos.le
    · rw [mul_comm, ← div_le_iff₀ hpos]
      exact halong i hi
  · rintro ⟨hdesired, halong⟩
    refine ⟨hdesired, fun i _ => ?_⟩
    rw [div_le_iff₀ hpos, mul_comm (x / 60)]
    exact halong i

/-- The limited feed is within all limits. -/
theorem limitFeed_le (hlong : shortestMove ≤ start.distance target)
    (hv : ∀ i, 0 ≤ (a.limits i).maxVelocity) (desired : ℝ) :
    limitFeed start target desired a ≤ desired ∧
      ∀ i, |target.along i - start.along i| * (limitFeed start target desired a / 60) ≤
        (a.limits i).maxVelocity * start.distance target :=
  (le_limitFeed_iff hlong hv _ desired).1 le_rfl

/-! ## The greatest admitted feed -/

/-- There and back the axes cover the same ways. -/
theorem limitFeed_comm (start target : Point ℝ) (desired : ℝ) (a : Axes ℝ) :
    limitFeed target start desired a = limitFeed start target desired a := by
  have hdelta : (start - target).magnitude = (target - start).magnitude := by
    refine Point.ext_along fun i => ?_
    rw [Point.along_magnitude, Point.along_magnitude, Point.along_sub, Point.along_sub,
      abs_sub_comm]
  unfold limitFeed
  rw [hdelta]

/-- **The limited feed is the greatest that is admitted**, read with exact arithmetic, for every
move that counts, every desired feed and velocities of any sign.  Axes that stand still have no
influence on it, and there and back it is the same. -/
theorem limitFeed_greatest (start target : Point ℝ) (desired : ℝ) (a : Axes ℝ)
    (hlong : 1e-9 ≤ start.distance target) :
    IsGreatest {feed | Admits start target desired a feed} (limitFeed start target desired a) ∧
    (∀ b : Axes ℝ, (∀ i, target.along i - start.along i ≠ 0 →
        (a.limits i).maxVelocity = (b.limits i).maxVelocity) →
      limitFeed start target desired b = limitFeed start target desired a) ∧
    limitFeed target start desired a = limitFeed start target desired a := by
  have hadmits (b : Axes ℝ) (x : ℝ) :
      x ≤ limitFeed start target desired b ↔ Admits start target desired b x :=
    le_limitFeed_iff_admits hlong
  refine ⟨⟨(hadmits a _).1 le_rfl, fun x hx => (hadmits a x).2 hx⟩, fun b hab => ?_,
    limitFeed_comm start target desired a⟩
  apply le_antisymm
  · exact (hadmits a _).2 (((hadmits b _).1 le_rfl).of_moving fun i hi => (hab i hi).symm)
  · exact (hadmits b _).2 (((hadmits a _).1 le_rfl).of_moving hab)

/-- Axes with the given velocities. -/
noncomputable def withVelocities (x y z : ℝ) : Axes ℝ :=
  ⟨⟨-1, 1, x, 1⟩, ⟨-1, 1, y, 1⟩, ⟨-1, 1, z, 1⟩⟩

/-- Three along X and four back along Y: the Y axis takes four fifths of the path velocity, so it
allows 12.5 millimetres per second.  The Z axis stands still and may have a negative velocity. -/
theorem limitFeed_greatest_slope :
    1e-9 ≤ (⟨0, 0, 0⟩ : Point ℝ).distance ⟨3, -4, 0⟩ ∧
    IsGreatest {feed | Admits ⟨0, 0, 0⟩ ⟨3, -4, 0⟩ 6000 (withVelocities 20 10 500) feed} 750 ∧
    limitFeed ⟨0, 0, 0⟩ ⟨3, -4, 0⟩ 6000 (withVelocities 20 10 500) = 750 ∧
    limitFeed ⟨0, 0, 0⟩ ⟨3, -4, 0⟩ 6000 (withVelocities 20 10 (-1)) = 750 ∧
    limitFeed ⟨3, -4, 0⟩ ⟨0, 0, 0⟩ 6000 (withVelocities 20 10 500) = 750 := by
  have hdistance : (⟨0, 0, 0⟩ : Point ℝ).distance ⟨3, -4, 0⟩ = 5 := by
    rw [← sq_eq_sq₀ (Point.distance_nonneg _ _) (by norm_num), Point.distance_sq]
    norm_num
  have hlong : 1e-9 ≤ (⟨0, 0, 0⟩ : Point ℝ).distance ⟨3, -4, 0⟩ := by
    rw [hdistance]
    norm_num
  obtain ⟨hgreatest, hstill, hback⟩ :=
    limitFeed_greatest ⟨0, 0, 0⟩ ⟨3, -4, 0⟩ 6000 (withVelocities 20 10 500) hlong
  have hslope : IsGreatest
      {feed | Admits ⟨0, 0, 0⟩ ⟨3, -4, 0⟩ 6000 (withVelocities 20 10 500) feed} 750 := by
    constructor
    · refine ⟨by norm_num, Axis.forall_iff.2 ⟨fun _ => ?_, fun _ => ?_, fun hz => ?_⟩⟩
      · show (750 : ℝ) / 60 * |3 - 0| / _ ≤ 20
        rw [hdistance]
        norm_num
      · show (750 : ℝ) / 60 * |-4 - 0| / _ ≤ 10
        rw [hdistance]
        norm_num
      · exact absurd (sub_self (0 : ℝ)) hz
    · rintro feed ⟨-, halong⟩
      have hy : feed / 60 * |-4 - 0| / _ ≤ 10 := halong .y (by simp [Point.along])
      rw [hdistance] at hy
      norm_num at hy
      linarith
  have hfeed := hgreatest.unique hslope
  refine ⟨hlong, hslope, hfeed, (hstill _ fun i hi => ?_).trans hfeed, hback.trans hfeed⟩
  cases i with
  | x => rfl
  | y => rfl
  | z => exact absurd (sub_self (0 : ℝ)) hi

end Machining.Kinematics
