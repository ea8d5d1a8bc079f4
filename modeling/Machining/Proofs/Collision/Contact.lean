import Machining.Collision.Event
import Machining.Proofs.Trajectory.Velocity

/-!
# Contact

A cube touches a box if they have a point in common.  The six comparisons of `Box.touches` decide
this: of all points of the box the nearest to the centre of the cube is the one to look at, and
along each axis it is the coordinate of the centre, moved into the range of the box.  All of this
is read with exact arithmetic.

* `Box.touches_iff_reaches` — the comparisons hold exactly if the box has a point within reach;
* `Box.contains_envelope_iff` — a point lies in the envelope exactly if no axis is past its limits;
* `Event.detect_exact` — the events of a trajectory, no more and no less, in order.
-/

set_option autoImplicit false

namespace Machining

/-! ## One axis -/

/-- The place of a range that is nearest to a coordinate. -/
noncomputable def nearestIn (lo hi p : ℝ) : ℝ := max lo (min hi p)

section Range

variable {lo hi p r : ℝ}

theorem le_nearestIn : lo ≤ nearestIn lo hi p := le_max_left _ _

theorem nearestIn_le (h : lo ≤ hi) : nearestIn lo hi p ≤ hi := max_le h (min_le_left _ _)

/-- The nearest place is within reach if the two ranges are not apart. -/
theorem abs_nearestIn_sub_le (hr : 0 ≤ r) (hlo : lo ≤ p + r) (hhi : p - r ≤ hi) :
    |nearestIn lo hi p - p| ≤ r := by
  rw [abs_le]
  constructor
  · have hmin : p - r ≤ min hi p := le_min hhi (by linarith)
    have hmax : min hi p ≤ nearestIn lo hi p := le_max_right _ _
    linarith
  · have hmin : min hi p ≤ p + r := (min_le_right _ _).trans (by linarith)
    have hmax : nearestIn lo hi p ≤ p + r := max_le hlo hmin
    linarith

end Range

/-! ## Boxes -/

namespace Box

variable (b : Box ℝ) (p : Point ℝ) (r : ℝ)

/-- The point lies in the box, faces included. -/
def Holds : Prop := ∀ i, b.min.along i ≤ p.along i ∧ p.along i ≤ b.max.along i

/-- The box holds a point that along no axis is further from `p` than `r`. -/
def Reaches : Prop := ∃ q, b.Holds q ∧ ∀ i, |q.along i - p.along i| ≤ r

/-- The point of the box that is nearest to `p`. -/
noncomputable def nearestPoint : Point ℝ :=
  ⟨nearestIn b.min.x b.max.x p.x, nearestIn b.min.y b.max.y p.y, nearestIn b.min.z b.max.z p.z⟩

theorem along_nearestPoint (i : Axis) :
    (b.nearestPoint p).along i = nearestIn (b.min.along i) (b.max.along i) (p.along i) := by
  cases i with
  | x => rfl
  | y => rfl
  | z => rfl

variable {b p r}

theorem isValid_iff : b.isValid = true ↔ ∀ i, b.min.along i ≤ b.max.along i :=
  isValid_iff_along

theorem touches_iff : b.touches p r = true ↔
    ∀ i, b.min.along i ≤ p.along i + r ∧ p.along i - r ≤ b.max.along i :=
  touches_iff_along

theorem holds_nearestPoint (hb : b.isValid = true) : b.Holds (b.nearestPoint p) := by
  intro i
  rw [along_nearestPoint]
  exact ⟨le_nearestIn, nearestIn_le (isValid_iff.1 hb i)⟩

/-- **The six comparisons find every contact and no other.** -/
theorem touches_iff_reaches (hb : b.isValid = true) (hr : 0 ≤ r) :
    b.touches p r = true ↔ b.Reaches p r := by
  rw [touches_iff]
  constructor
  · intro h
    refine ⟨b.nearestPoint p, holds_nearestPoint hb, ?_⟩
    intro i
    rw [along_nearestPoint]
    exact abs_nearestIn_sub_le hr (h i).1 (h i).2
  · rintro ⟨q, hq, hnear⟩ i
    obtain ⟨hlo, hhi⟩ := hq i
    obtain ⟨hbelow, habove⟩ := abs_le.1 (hnear i)
    constructor
    · linarith
    · linarith

theorem contains_iff : b.contains p = true ↔ b.Holds p := by
  show b.touches p _ = true ↔ _
  rw [Scalar.zero_real, touches_iff]
  simp only [add_zero, sub_zero]
  rfl

end Box

/-! ## The envelope -/

/-- Some coordinate of the point is below the least or above the greatest of its axis. -/
def Axes.Exceeded (a : Axes ℝ) (p : Point ℝ) : Prop :=
  ∃ i, p.along i < (a.limits i).min ∨ (a.limits i).max < p.along i

theorem Box.contains_envelope_iff {m : Machine ℝ} {p : Point ℝ} :
    m.envelope.contains p = true ↔ ¬ m.axes.Exceeded p := by
  simp only [Box.contains_iff, Box.Holds, Axes.Exceeded, m.along_envelope, not_exists, not_or,
    not_lt]

/-! ## Events -/

theorem Tool.radius_real (t : Tool ℝ) : t.radius = t.diameter / 2 := rfl

namespace Event

open Classical in
/-- **The events are exactly the violations**, in the order of the samples: for each sample first
the event of the envelope, if the point has left it, and then the events of the fixtures with a
point in the reach of the tool, in the order of the machine.  What follows a trajectory has no
influence on the events along it. -/
theorem detect_exact {m : Machine ℝ} (hdiameter : 0 ≤ m.tool.diameter)
    (hfixtures : ∀ f ∈ m.fixtures, f.box.isValid = true) :
    (∀ xs, detect m xs = xs.flatMap fun x =>
      (if m.axes.Exceeded x.position then
        [⟨.travelLimit, x.time, x.line, x.block, x.position, "tool", "machine_envelope"⟩]
      else []) ++
      (m.fixtures.filter fun f => f.box.Reaches x.position (m.tool.diameter / 2)).map fun f =>
        ⟨.collision, x.time, x.line, x.block, x.position, "tool", f.name⟩) ∧
    ∀ xs ys, detect m (xs ++ ys) = detect m xs ++ detect m ys := by
  have hradius : 0 ≤ m.tool.diameter / 2 := by linarith
  refine ⟨?_, fun xs ys => List.flatMap_append⟩
  intro xs
  unfold detect
  congr 1
  funext x
  have hfilter : (m.fixtures.filter fun f => f.box.touches x.position m.tool.radius) =
      m.fixtures.filter fun f => f.box.Reaches x.position (m.tool.diameter / 2) := by
    apply List.filter_congr
    intro f hf
    rw [Tool.radius_real, Bool.eq_iff_iff, decide_eq_true_iff]
    exact Box.touches_iff_reaches (hfixtures f hf) hradius
  unfold atSample
  rw [hfilter]
  congr 1
  by_cases hpast : m.axes.Exceeded x.position
  · rw [if_pos hpast, if_neg fun h => Box.contains_envelope_iff.1 h hpast]
    rfl
  · rw [if_neg hpast, if_pos (Box.contains_envelope_iff.2 hpast)]

/-- A machine with short travel along X and two clamps of one name that meet at a face. -/
def shortMachine {α : Type} [Scalar α] : Machine α :=
  { Machine.default with
    axes := ⟨⟨0, 2, 500, 3000⟩, ⟨0, 2, 500, 3000⟩, ⟨0, 2, 500, 3000⟩⟩
    tool := ⟨2⟩
    fixtures := [⟨"clamp", ⟨⟨3, 0, 0⟩, ⟨4, 1, 1⟩⟩⟩, ⟨"clamp", ⟨⟨4, 0, 0⟩, ⟨5, 1, 1⟩⟩⟩] }

/-- A sample at the given place along X. -/
def sampleAt {α : Type} [Scalar α] (x : α) : Sample α :=
  ⟨1, 0, 1, ⟨x, 0, 0⟩, ⟨x, 0, 0⟩, 60, 0, .off, .linear⟩

open Classical in
/-- Just touching a face counts, and clamps of one name count apart. -/
theorem detect_exact_shortMachine :
    let m : Machine ℝ := shortMachine
    0 ≤ m.tool.diameter ∧ (∀ f ∈ m.fixtures, f.box.isValid = true) ∧
    ((detect m [sampleAt 1, sampleAt 2, sampleAt 3]).map fun e => (e.kind, e.point.x)) =
      [(.collision, 2), (.travelLimit, 3), (.collision, 3), (.collision, 3)] ∧
    (∀ xs, detect m xs = xs.flatMap fun x =>
      (if m.axes.Exceeded x.position then
        [⟨.travelLimit, x.time, x.line, x.block, x.position, "tool", "machine_envelope"⟩]
      else []) ++
      (m.fixtures.filter fun f => f.box.Reaches x.position (m.tool.diameter / 2)).map fun f =>
        ⟨.collision, x.time, x.line, x.block, x.position, "tool", f.name⟩) ∧
    ∀ xs ys, detect m (xs ++ ys) = detect m xs ++ detect m ys := by
  intro m
  have hdiameter : 0 ≤ m.tool.diameter := by
    show (0 : ℝ) ≤ 2
    norm_num
  have hfixtures : ∀ f ∈ m.fixtures, f.box.isValid = true := by
    simp only [m, shortMachine, List.forall_mem_cons, Box.isValid, Scalar.ofNat_real,
      Scalar.one_real, Scalar.zero_real]
    norm_num
  refine ⟨hdiameter, hfixtures, ?_, detect_exact hdiameter hfixtures⟩
  simp only [detect, List.flatMap_cons, List.flatMap_nil, List.filter_cons, List.filter_nil,
    atSample, m, shortMachine, sampleAt, ofSample, Machine.envelope, Box.contains, Box.touches,
    Tool.radius, Scalar.ofNat_real, Scalar.one_real, Scalar.zero_real]
  norm_num

end Event

end Machining
