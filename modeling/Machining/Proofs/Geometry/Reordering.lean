import Machining.Proofs.Geometry.Plane

/-!
# The order of the corners

The test of a point begins at the first corner of a triangle.  Most of what it computes does not
depend on that choice: the normal keeps its length, the height keeps its magnitude, and the weights
change places with the corners.  Only the extent does, by which the tolerance of the height is
scaled, for it is measured from the first corner.  So the orders of the corners disagree about a
point exactly if its height is within the tolerance of one corner and beyond that of another.

* `Triangle.eq_of_perm` — what turning and swapping keep is the same for all orders;
* `Triangle.contains_iff_of_perm` — the test for any order of the corners;
* `Triangle.contains_perm_iff` — when all orders agree about a point;
* `Triangle.order_irrelevant` — the same for the overlap of two triangles, and the one case in which
  no condition is needed, that of exchanging them.
-/

set_option autoImplicit false

namespace Machining

namespace Triangle

/-! ## Orders -/

section Orders

variable {α : Type}

/-- The same corners, begun at the second one. -/
def turned (t : Triangle α) : Triangle α := ⟨t.b, t.c, t.a⟩

/-- The same corners, the second and the third one exchanged. -/
def swapped (t : Triangle α) : Triangle α := ⟨t.a, t.c, t.b⟩

/-- **Turning and swapping reach all orders.** -/
theorem eq_of_perm {β : Sort*} {f : Triangle α → β} (hturned : ∀ t, f t.turned = f t)
    (hswapped : ∀ t, f t.swapped = f t) {s t : Triangle α} (h : s.corners.Perm t.corners) :
    f s = f t := by
  obtain ⟨a, b, c⟩ := s
  have hmem := List.mem_permutations'.2 h
  simp only [corners, List.permutations', List.flatMap_cons, List.permutations'Aux,
    List.flatMap_nil, List.append_nil, List.map_cons, List.map_nil, List.cons_append,
    List.nil_append, List.mem_cons, List.cons.injEq, and_true, List.not_mem_nil, or_false] at hmem
  rcases hmem with ⟨rfl, rfl, rfl⟩ | ⟨rfl, rfl, rfl⟩ | ⟨rfl, rfl, rfl⟩ | ⟨rfl, rfl, rfl⟩ |
    ⟨rfl, rfl, rfl⟩ | ⟨rfl, rfl, rfl⟩
  · rfl
  · exact (hturned t.swapped.turned).trans ((hturned t.swapped).trans (hswapped t))
  · exact hturned t
  · exact hswapped t
  · exact (hturned t.turned).trans (hturned t)
  · exact (hturned t.swapped).trans (hswapped t)

theorem corners_turned (t : Triangle α) : t.turned.corners.Perm t.corners :=
  List.perm_append_singleton t.a [t.b, t.c]

theorem corners_swapped (t : Triangle α) : t.swapped.corners.Perm t.corners :=
  (List.Perm.swap t.b t.c []).cons t.a

theorem exists_perm_of_mem_corners {t : Triangle α} {p : Point α} (hp : p ∈ t.corners) :
    ∃ s : Triangle α, s.corners.Perm t.corners ∧ s.a = p := by
  simp only [corners, List.mem_cons, List.not_mem_nil, or_false] at hp
  rcases hp with rfl | rfl | rfl
  · exact ⟨t, .refl _, rfl⟩
  · exact ⟨t.turned, t.corners_turned, rfl⟩
  · exact ⟨t.turned.turned, t.turned.corners_turned.trans t.corners_turned, rfl⟩

end Orders

variable (t : Triangle ℝ) (p : Point ℝ)

/-! ## What no order changes -/

theorem normal_turned : t.turned.normal = t.normal := by
  simp only [normal, turned, Point.cross, Point.sub_def, Point.mk.injEq]
  refine ⟨by ring, by ring, by ring⟩

theorem normal_swapped : t.swapped.normal = t.normal.scale (-1) := by
  simp only [normal, swapped, Point.cross, Point.scale_def, Point.mk.injEq]
  refine ⟨by ring, by ring, by ring⟩

theorem length_normal_swapped : t.swapped.normal.length = t.normal.length := by
  rw [normal_swapped, Point.length_scale, abs_neg, abs_one, one_mul]

theorem weighed_turned (u v w : ℝ) : t.turned.weighed u v w = t.weighed w u v := by
  simp only [weighed, turned, Point.add_def, Point.mk.injEq]
  refine ⟨by ring, by ring, by ring⟩

theorem weighed_swapped (u v w : ℝ) : t.swapped.weighed u v w = t.weighed u w v := by
  simp only [weighed, swapped, Point.add_def, Point.mk.injEq]
  refine ⟨by ring, by ring, by ring⟩

theorem raised_turned (u v w h : ℝ) : t.turned.raised u v w h = t.raised w u v h := by
  unfold raised unitNormal
  rw [weighed_turned, normal_turned]

theorem raised_swapped (u v w h : ℝ) : t.swapped.raised u v w h = t.raised u w v (-h) := by
  unfold raised unitNormal
  rw [weighed_swapped, length_normal_swapped, normal_swapped]
  simp only [Point.add_def, Point.scale_def, Point.mk.injEq]
  refine ⟨by ring, by ring, by ring⟩

theorem covers_turned : t.turned.Covers p ↔ t.Covers p := by
  constructor
  · rintro ⟨u, v, w, h, hsum, hu, hv, hw, rfl⟩
    exact ⟨w, u, v, h, by linarith, hw, hu, hv, t.raised_turned u v w h⟩
  · rintro ⟨u, v, w, h, hsum, hu, hv, hw, rfl⟩
    exact ⟨v, w, u, h, by linarith, hv, hw, hu, (t.raised_turned v w u h).symm⟩

theorem covers_swapped : t.swapped.Covers p ↔ t.Covers p := by
  constructor
  · rintro ⟨u, v, w, h, hsum, hu, hv, hw, rfl⟩
    exact ⟨u, w, v, -h, by linarith, hu, hw, hv, t.raised_swapped u v w h⟩
  · rintro ⟨u, v, w, h, hsum, hu, hv, hw, rfl⟩
    refine ⟨u, w, v, -h, by linarith, hu, hw, hv, ?_⟩
    rw [raised_swapped, neg_neg]

theorem height_turned : t.turned.height p = t.height p := by
  -- the first two corners are equally high
  have hside : t.normal.dot (p - t.b) = t.normal.dot (p - t.a) := by
    have hsplit : p - t.a = (p - t.b) + (t.b - t.a) := by
      simp only [Point.add_def, Point.sub_def, sub_add_sub_cancel]
    rw [hsplit, Point.dot_add, normal, Point.cross_dot_left, add_zero]
  unfold height
  rw [normal_turned]
  show t.normal.dot (p - t.b) / t.normal.length = _
  rw [hside]

theorem height_swapped : t.swapped.height p = -t.height p := by
  unfold height
  rw [length_normal_swapped, normal_swapped, Point.dot_comm, Point.dot_scale, Point.dot_comm,
    mul_neg_one, neg_div]
  rfl

/-! ## The extent -/

/-- The greatest distance from a point to the corners and to another point. -/
noncomputable def reach (t : Triangle ℝ) (c p : Point ℝ) : ℝ :=
  max (max (max (c.distance t.a) (c.distance t.b)) (c.distance t.c)) (c.distance p)

theorem reach_turned (c : Point ℝ) : t.turned.reach c p = t.reach c p := by
  simp only [reach, turned]
  ac_rfl

theorem reach_swapped (c : Point ℝ) : t.swapped.reach c p = t.reach c p := by
  simp only [reach, swapped]
  ac_rfl

theorem extent_eq_reach : t.extent p = t.reach t.a p := by
  have hb : (t.b - t.a).length = t.a.distance t.b := t.b.distance_comm t.a
  have hc : (t.c - t.a).length = t.a.distance t.c := t.c.distance_comm t.a
  have hp : (p - t.a).length = t.a.distance p := p.distance_comm t.a
  unfold extent reach
  rw [hb, hc, hp, Point.distance_self, max_eq_right (Point.distance_nonneg _ _)]

variable {t p} {s s' t' : Triangle ℝ}

/-! ## The test -/

/-- What a triangle holds, the tolerance of the height scaled by the reach of the point `c`. -/
def ContainsFrom (t : Triangle ℝ) (c p : Point ℝ) : Prop :=
  tolerance ≤ t.normal.length ^ 2 ∧ t.Covers p ∧ |t.height p| ≤ tolerance * (1 + t.reach c p)

/-- **The test for any order of the corners**: only the extent depends on the order. -/
theorem contains_iff_of_perm (h : s.corners.Perm t.corners) :
    s.contains p = true ↔ t.ContainsFrom s.a p := by
  have hfrom : s.ContainsFrom s.a p = t.ContainsFrom s.a p := by
    refine eq_of_perm (f := fun r => r.ContainsFrom s.a p) (fun r => ?_) (fun r => ?_) h
    · simp only [ContainsFrom, normal_turned, covers_turned, height_turned, reach_turned]
    · simp only [ContainsFrom, length_normal_swapped, covers_swapped, height_swapped, abs_neg,
        reach_swapped]
  rw [contains_iff_covers, extent_eq_reach, ← hfrom, ContainsFrom]

/-- The point is above or below the triangle, and its height is within the tolerance at one corner
and beyond it at another. -/
def Disputed (t : Triangle ℝ) (p : Point ℝ) : Prop :=
  1e-9 ≤ t.normal.length ^ 2 ∧ t.Covers p ∧
    ∃ c ∈ t.corners, ∃ d ∈ t.corners,
      1e-9 * (1 + t.reach c p) < |t.height p| ∧ |t.height p| ≤ 1e-9 * (1 + t.reach d p)

/-- Orders that begin at the same corner agree. -/
theorem contains_eq_of_first (h : s.corners.Perm t.corners) (hfirst : s.a = t.a) :
    s.contains p = t.contains p := by
  rw [Bool.eq_iff_iff, contains_iff_of_perm h, contains_iff_of_perm (.refl t.corners), hfirst]

/-- **All orders agree about a point exactly if it is not disputed.** -/
theorem contains_perm_iff :
    (∀ s : Triangle ℝ, s.corners.Perm t.corners → s.contains p = t.contains p) ↔
      ¬t.Disputed p := by
  constructor
  · rintro hall ⟨hlong, hcovers, c, hc, d, hd, hbeyond, hwithin⟩
    obtain ⟨s, hs, rfl⟩ := exists_perm_of_mem_corners hc
    obtain ⟨s', hs', rfl⟩ := exists_perm_of_mem_corners hd
    have hin : s'.contains p = true := (contains_iff_of_perm hs').2 ⟨hlong, hcovers, hwithin⟩
    rw [hall s' hs', ← hall s hs, contains_iff_of_perm hs] at hin
    exact absurd hin.2.2 (not_le.2 hbeyond)
  · intro hundisputed s hs
    have hfirst : s.a ∈ t.corners := hs.subset List.mem_cons_self
    rw [Bool.eq_iff_iff, contains_iff_of_perm hs, contains_iff_of_perm (.refl t.corners)]
    -- a point that is within the tolerance of one first corner only is disputed by the two
    constructor
    · rintro ⟨hlong, hcovers, hwithin⟩
      refine ⟨hlong, hcovers, not_lt.1 fun hbeyond => hundisputed ?_⟩
      exact ⟨hlong, hcovers, _, List.mem_cons_self, _, hfirst, hbeyond, hwithin⟩
    · rintro ⟨hlong, hcovers, hwithin⟩
      refine ⟨hlong, hcovers, not_lt.1 fun hbeyond => hundisputed ?_⟩
      exact ⟨hlong, hcovers, _, hfirst, _, List.mem_cons_self, hbeyond, hwithin⟩

theorem reach_nonneg (t : Triangle ℝ) (c p : Point ℝ) : 0 ≤ t.reach c p :=
  le_max_of_le_right (Point.distance_nonneg c p)

/-- Points that are not even as high as the bare tolerance are not disputed. -/
theorem not_disputed_of_height_le (h : |t.height p| ≤ 1e-9) : ¬t.Disputed p := by
  rintro ⟨-, -, c, -, d, -, hbeyond, -⟩
  have hreach := t.reach_nonneg c p
  linarith

/-! ## Overlaps -/

theorem overlaps_comm {α : Type} [Scalar α] (s t : Triangle α) : s.overlaps t = t.overlaps s :=
  Bool.or_comm _ _

theorem overlaps_congr (hs : s'.corners.Perm s.corners) (ht : t'.corners.Perm t.corners)
    (hst : ∀ p ∈ s.corners, t'.contains p = t.contains p)
    (hts : ∀ p ∈ t.corners, s'.contains p = s.contains p) : s'.overlaps t' = s.overlaps t := by
  have hany {f g : Point ℝ → Bool} {ps : List (Point ℝ)} (h : ∀ p ∈ ps, f p = g p) :
      ps.any f = ps.any g := by
    rw [Bool.eq_iff_iff, List.any_eq_true, List.any_eq_true]
    exact exists_congr fun p => and_congr_right fun hp => by rw [h p hp]
  unfold overlaps
  rw [hs.any_eq, ht.any_eq, hany hst, hany hts]

/-- **How far the order of the corners is irrelevant.**  The two triangles can be exchanged, in any
arithmetic.  With exact arithmetic orders that begin at the same corner agree about every point, and
all orders agree about a point exactly if it is not disputed; an overlap stays the same if each of
the triangles keeps its first corner or disputes no corner of the other one. -/
theorem order_irrelevant :
    (∀ (α : Type) [Scalar α] (s t : Triangle α), s.overlaps t = t.overlaps s) ∧
    (∀ (t : Triangle ℝ) (p : Point ℝ),
      (∀ s : Triangle ℝ, s.corners.Perm t.corners → s.a = t.a → s.contains p = t.contains p) ∧
      ((∀ s : Triangle ℝ, s.corners.Perm t.corners → s.contains p = t.contains p) ↔
        ¬t.Disputed p)) ∧
    ∀ s s' t t' : Triangle ℝ, s'.corners.Perm s.corners → t'.corners.Perm t.corners →
      (s'.a = s.a ∨ ∀ p ∈ t.corners, ¬s.Disputed p) →
      (t'.a = t.a ∨ ∀ p ∈ s.corners, ¬t.Disputed p) → s'.overlaps t' = s.overlaps t := by
  refine ⟨fun _ _ => overlaps_comm, ?_, ?_⟩
  · intro t p
    exact ⟨fun s hs hfirst => contains_eq_of_first hs hfirst, contains_perm_iff⟩
  · intro s s' t t' hs ht hsFirst htFirst
    have hcontains {s s' t : Triangle ℝ} (hs : s'.corners.Perm s.corners)
        (h : s'.a = s.a ∨ ∀ p ∈ t.corners, ¬s.Disputed p) :
        ∀ p ∈ t.corners, s'.contains p = s.contains p := by
      intro p hp
      rcases h with hfirst | hundisputed
      · exact contains_eq_of_first hs hfirst
      · exact contains_perm_iff.2 (hundisputed p hp) s' hs
    exact overlaps_congr hs ht (hcontains ht htFirst) (hcontains hs hsFirst)

theorem order_irrelevant_closeCopies :
    let s : Triangle ℝ := rightTriangle 1e-9
    let t : Triangle ℝ := rightTriangle 0
    (∀ p ∈ s.corners, ¬t.Disputed p) ∧ (∀ p ∈ t.corners, ¬s.Disputed p) ∧
    (∀ p ∈ s.corners, t.swapped.contains p = t.contains p) ∧
    (∀ p ∈ s.corners, t.turned.contains p = t.contains p) ∧
    s.turned.overlaps t.turned = s.overlaps t := by
  intro s t
  have hclose {y z : ℝ} (hz : |y - z| = 1e-9) :
      ∀ p ∈ (rightTriangle y).corners, ¬(rightTriangle z).Disputed p := by
    intro p hp
    refine not_disputed_of_height_le ?_
    rw [height_rightTriangle, ← hz, ← (along_of_mem_rightTriangle (z := z) hp).1]
    rfl
  have hst : ∀ p ∈ s.corners, ¬t.Disputed p := hclose (by norm_num)
  have hts : ∀ p ∈ t.corners, ¬s.Disputed p := hclose (by norm_num)
  obtain ⟨-, hpoint, hoverlap⟩ := order_irrelevant
  refine ⟨hst, hts, fun p _ => (hpoint t p).1 _ t.corners_swapped rfl,
    fun p hp => (hpoint t p).2.2 (hst p hp) _ t.corners_turned, ?_⟩
  exact hoverlap s s.turned t t.turned s.corners_turned t.corners_turned (.inr hts) (.inr hst)

-- From the right angle of the triangle its corners and its points are about one millimetre away,
-- from the other corners some are farther than 1.4 millimetres.

theorem rightTriangle_contains_eq_false {z : ℝ} (hz : 2.2e-9 ≤ |p.z - z|)
    (hp : p.distance ⟨0, 0, z⟩ ^ 2 ≤ 1.1 ^ 2) : (rightTriangle z).contains p = false := by
  rw [← Bool.not_eq_true, contains_iff_covers, height_rightTriangle, tolerance_real]
  rintro ⟨-, -, hheight⟩
  have hextent : (rightTriangle z).extent p ≤ 1.1 := by
    rw [extent_rightTriangle, max_le_iff, Point.distance_le_iff (by norm_num)]
    exact ⟨by norm_num, hp⟩
  linarith

theorem rightTriangle_turned_contains {z : ℝ} (hu : 0 ≤ 1 - p.x - p.y) (hv : 0 ≤ p.x)
    (hw : 0 ≤ p.y) (hz : |p.z - z| ≤ 2.4e-9) : (rightTriangle z).turned.contains p = true := by
  have hreach : 1.4 ≤ (rightTriangle z).reach (rightTriangle z).b p := by
    have hside : (1.4 : ℝ) ≤ (rightTriangle z).b.distance (rightTriangle z).c := by
      rw [← sq_le_sq₀ (by norm_num) (Point.distance_nonneg _ _), Point.distance_sq,
        rightTriangle_real]
      norm_num
    exact le_max_of_le_left (le_max_of_le_right hside)
  rw [contains_iff_of_perm (corners_turned _), ContainsFrom, length_normal_rightTriangle,
    covers_rightTriangle_iff, height_rightTriangle, tolerance_real]
  refine ⟨by norm_num, ⟨by linarith, by linarith, by linarith⟩, hz.trans ?_⟩
  show _ ≤ 1e-9 * (1 + (rightTriangle z).reach (rightTriangle z).b p)
  linarith

/-- Two parallel copies of a triangle, at a distance between the tolerances of their corners, with
exact arithmetic and with doubles alike.  With doubles the order also decides how the last weight
is rounded. -/
theorem order_disagrees :
    let p : Point ℝ := ⟨0.25, 0.25, 2.2e-9⟩
    let p' : Point Float := ⟨0.25, 0.25, 2.2e-9⟩
    let q' : Point Float := ⟨0.444, 0.556000001, 0⟩
    (rightTriangle (0 : ℝ)).contains p = false ∧
    (rightTriangle (0 : ℝ)).turned.contains p = true ∧
    (rightTriangle 2.2e-9).overlaps (rightTriangle (0 : ℝ)) = false ∧
    (rightTriangle 2.2e-9).overlaps (rightTriangle (0 : ℝ)).turned = true ∧
    (rightTriangle (0 : Float)).contains p' = false ∧
    (rightTriangle (0 : Float)).turned.contains p' = true ∧
    (rightTriangle (2.2e-9 : Float)).overlaps (rightTriangle 0) = false ∧
    (rightTriangle (2.2e-9 : Float)).overlaps (rightTriangle 0).turned = true ∧
    (rightTriangle (0 : Float)).contains q' = false ∧
    (rightTriangle (0 : Float)).swapped.contains q' = true := by
  have hcopy {y z : ℝ} (hz : |y - z| = 2.2e-9) :
      ∀ p ∈ (rightTriangle y).corners, (rightTriangle z).contains p = false := by
    intro p hp
    obtain ⟨hpz, hreach⟩ := along_of_mem_rightTriangle (z := z) hp
    have hheight : |p.z - z| = 2.2e-9 := by
      rw [← hz, ← hpz]
      rfl
    refine rightTriangle_contains_eq_false hheight.ge (hreach.trans ?_)
    rw [← sq_abs, hz]
    norm_num
  intro p p' q'
  refine ⟨?_, ?_, ?_, ?_, by decide +kernel, by decide +kernel, by decide +kernel,
    by decide +kernel, by decide +kernel, by decide +kernel⟩
  · refine rightTriangle_contains_eq_false ?_ ?_
    · norm_num [p]
    · norm_num [p, Point.distance_sq]
  · refine rightTriangle_turned_contains ?_ ?_ ?_ ?_ <;> norm_num [p]
  · rw [overlaps_eq_false_iff]
    exact ⟨hcopy (by norm_num), hcopy (by norm_num)⟩
  · have hcorner :
        (rightTriangle (0 : ℝ)).turned.contains (rightTriangle (2.2e-9 : ℝ)).a = true := by
      rw [rightTriangle_real (2.2e-9)]
      refine rightTriangle_turned_contains ?_ ?_ ?_ ?_ <;> norm_num
    unfold overlaps
    rw [Bool.or_eq_true, List.any_eq_true]
    exact Or.inl ⟨_, List.mem_cons_self, hcorner⟩

end Triangle

end Machining
