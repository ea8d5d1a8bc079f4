import Machining.Proofs.Geometry.Parallelogram
import Machining.Proofs.Stock.Corners
import Machining.Proofs.Stock.Volume

/-!
# The faces of a surface

A side of a cell is a square: across its own axis it lies at one end of the cell, along the other
two axes it reaches from end to end.  Both meshes write a square as two triangles, so what has to
be right is which squares they write and how the squares lie.  The surface has one square for each
side of an occupied cell beyond which nothing is left, be it removed or outside the grid; the mesh
of top faces has one for each occupied cell.

* `Side.step`, `Stock.isExposed_iff` — the neighbour that a side faces, one step outward;
* `Stock.face`, `Stock.Tiles`, `Stock.tiles_sideFacets` — the two triangles tile the side, wound
  so that their normal points outward;
* `Stock.surfaceFacets_eq`, `Stock.nodup_surfaceFacets` — the surface, each exposed side once;
* `Stock.topFacets_eq`, `Stock.filter_normal` — the upper sides of all occupied cells, and the part
  of the surface that faces one way;
* `Stock.surfaceFacets_exposed` — both meshes with all of this, read with exact arithmetic.
-/

set_option autoImplicit false

namespace Machining

/-! ## Sides and axes -/

/-- The position of a cell along an axis. -/
def Cell.along (c : Cell) : Axis → ℕ
  | .x => c.x
  | .y => c.y
  | .z => c.z

/-- Whether a corner is the far one along an axis. -/
def Corner.along (k : Corner) : Axis → Bool
  | .x => k.x
  | .y => k.y
  | .z => k.z

/-- The cell comes earlier: layer by layer, row by row, along X last. -/
def Cell.Precedes (c d : Cell) : Prop :=
  c.z < d.z ∨ c.z = d.z ∧ (c.y < d.y ∨ c.y = d.y ∧ c.x < d.x)

namespace Side

/-- The axis across which a side lies. -/
def axis : Side → Axis
  | left | right => .x
  | front | back => .y
  | bottom | top => .z

/-- A side lies at the far end of its cell, or at the near one. -/
def isFar : Side → Bool
  | left | front | bottom => false
  | right | back | top => true

/-- The step from a cell to its neighbour beyond a side. -/
def step (side : Side) (i : Axis) : ℤ :=
  if i = side.axis then if side.isFar then 1 else -1 else 0

/-- The axis of the first edge of a side. -/
def run : Side → Axis
  | left | right => .z
  | front | back | bottom | top => .x

/-- The axis of the last edge of a side. -/
def rise : Side → Axis
  | front | back => .z
  | left | right | bottom | top => .y

/-- **The neighbour beyond a side** is one step away. -/
theorem neighbour?_eq_some_iff {side : Side} {c d : Cell} : side.neighbour? c = some d ↔
    ∀ i, (d.along i : ℤ) = c.along i + side.step i := by
  obtain ⟨x, y, z⟩ := c
  obtain ⟨x', y', z'⟩ := d
  rw [Axis.forall_iff]
  cases side
  case left | front | bottom =>
    simp only [neighbour?, Cell.along, step, axis, isFar]
    split
    · simp
      omega
    · simp
      omega
  case right | back | top =>
    simp only [neighbour?, Cell.along, step, axis, isFar]
    simp
    omega

theorem axis_cases (side : Side) (i : Axis) : i = side.axis ∨ i = side.run ∨ i = side.rise := by
  cases side <;> cases i <;> decide

theorem axis_ne (side : Side) :
    side.run ≠ side.axis ∧ side.rise ≠ side.axis ∧ side.run ≠ side.rise := by
  cases side <;> decide

theorem mem_cornerList {side : Side} {k : Corner} :
    k ∈ side.cornerList ↔ k.along side.axis = side.isFar := by
  obtain ⟨x, y, z⟩ := k
  cases side <;> cases x <;> cases y <;> cases z <;> decide

/-- The second, the third and the last corner of a side, seen from the first one. -/
theorem along_corners (side : Side) (i : Axis) :
    side.corners.2.1.along i = (side.corners.1.along i ^^ decide (i = side.run)) ∧
    side.corners.2.2.1.along i =
      (side.corners.1.along i ^^ decide (i = side.run ∨ i = side.rise)) ∧
    side.corners.2.2.2.along i = (side.corners.1.along i ^^ decide (i = side.rise)) := by
  cases side <;> cases i <;> decide

theorem along_axis_corner (side : Side) : side.corners.1.along side.axis = side.isFar := by
  cases side <;> rfl

/-- The normal of a side is its step. -/
theorem along_normal (side : Side) (i : Axis) :
    (side.normal : Point ℝ).along i = side.step i := by
  cases side <;> cases i <;>
    simp [normal, Point.along, step, axis, isFar, Scalar.zero_real, Scalar.one_real]

theorem normal_injective : Function.Injective (normal : Side → Point ℝ) := by
  intro side side' h
  have hstep (i : Axis) : side.step i = side'.step i := by
    have halong := congrArg (fun p => Point.along p i) h
    simp only [along_normal, Int.cast_inj] at halong
    exact halong
  have hx := hstep .x
  have hy := hstep .y
  have hz := hstep .z
  revert hx hy hz
  cases side <;> cases side' <;> decide

end Side

/-! ## Exposed sides -/

namespace Grid

variable {α : Type} {g : Grid α}

theorem pairwise_cells (g : Grid α) : g.cells.Pairwise Cell.Precedes := by
  unfold cells
  rw [List.pairwise_flatMap]
  refine ⟨fun z _ => ?_, ?_⟩
  · rw [List.pairwise_flatMap]
    refine ⟨fun y _ => ?_, ?_⟩
    · rw [List.pairwise_map]
      exact List.pairwise_lt_range.imp fun hx => Or.inr ⟨rfl, Or.inr ⟨rfl, hx⟩⟩
    · refine List.pairwise_lt_range.imp fun hy => ?_
      simp only [List.mem_map]
      rintro _ ⟨x, -, rfl⟩ _ ⟨x', -, rfl⟩
      exact Or.inr ⟨rfl, Or.inl hy⟩
  · refine List.pairwise_lt_range.imp fun hz => ?_
    simp only [List.mem_flatMap, List.mem_map]
    rintro _ ⟨y, -, x, -, rfl⟩ _ ⟨y', -, x', -, rfl⟩
    exact Or.inl hz

end Grid

/-- To drop elements of a list is to let them contribute nothing. -/
theorem flatMap_filter {β γ : Type} (p : β → Bool) (f : β → List γ) (l : List β) :
    (l.filter p).flatMap f = l.flatMap fun a => if p a = true then f a else [] := by
  induction l with
  | nil => rfl
  | cons a l ih =>
    rw [List.filter_cons, List.flatMap_cons, ← ih]
    split
    · rfl
    · rfl

namespace Stock

section Exposed

variable {α : Type} {s : Stock α} {c : Cell} {side : Side}

/-- Nothing is left beyond a side of a cell: the neighbour is removed or outside the grid. -/
def IsOpen (s : Stock α) (c : Cell) (side : Side) : Prop :=
  ∀ d, s.toGrid.holds d → (∀ i, (d.along i : ℤ) = c.along i + side.step i) →
    s.isOccupied d = false

/-- **A side is exposed if nothing is left beyond it**, and only then. -/
theorem isExposed_iff : s.isExposed c side = true ↔ s.IsOpen c side := by
  rw [← Bool.not_eq_false, isExposed_eq_false_iff]
  unfold IsOpen
  simp only [← Side.neighbour?_eq_some_iff, not_exists, not_and, Bool.not_eq_true]
  exact ⟨fun h d _ hd => h d hd, fun h d hd => by_contra fun hocc =>
    hocc (h d (holds_of_isOccupied (Bool.of_not_eq_false hocc)) hd)⟩

instance (s : Stock α) (c : Cell) (side : Side) : Decidable (s.IsOpen c side) :=
  decidable_of_iff _ isExposed_iff

/-- The exposed sides of the occupied cells in order. -/
def exposedSides (s : Stock α) : List (Cell × Side) :=
  s.occupiedCells.flatMap fun c => (Side.all.filter (s.isExposed c)).map fun side => (c, side)

theorem mem_exposedSides :
    (c, side) ∈ s.exposedSides ↔ s.isOccupied c = true ∧ s.IsOpen c side := by
  unfold exposedSides
  simp only [List.mem_flatMap, List.mem_map, List.mem_filter, Side.mem_all, true_and,
    mem_occupiedCells, Prod.mk.injEq, ← isExposed_iff]
  constructor
  · rintro ⟨_, hocc, _, hexposed, rfl, rfl⟩
    exact ⟨hocc, hexposed⟩
  · rintro ⟨hocc, hexposed⟩
    exact ⟨c, hocc, side, hexposed, rfl, rfl⟩

theorem nodup_exposedSides (s : Stock α) : s.exposedSides.Nodup := by
  unfold exposedSides
  rw [List.nodup_flatMap]
  refine ⟨fun c _ => ?_, s.nodup_occupiedCells.imp fun {c d} hne => ?_⟩
  · exact (Side.nodup_all.filter _).map fun side side' h => (Prod.mk.inj h).2
  · simp only [Function.onFun, List.disjoint_left, List.mem_map]
    rintro _ ⟨side, -, rfl⟩ ⟨side', -, h⟩
    exact hne (Prod.mk.inj h).1.symm

theorem pairwise_occupiedCells (s : Stock α) : s.occupiedCells.Pairwise Cell.Precedes :=
  s.toGrid.pairwise_cells.filter _

/-- The two facets of a side of a cell. -/
def sideFacets [Scalar α] (s : Stock α) (c : Cell) (side : Side) : List (Facet α) :=
  halves side.normal (s.place c) side.corners

/-- **The surface is made of the exposed sides.** -/
theorem surfaceFacets_eq [Scalar α] (s : Stock α) :
    s.surfaceFacets = s.exposedSides.flatMap fun x => s.sideFacets x.1 x.2 := by
  unfold surfaceFacets exposedSides
  simp only [List.flatMap_assoc, List.flatMap_map]
  rfl

end Exposed

/-! ## Squares -/

section Squares

variable {s : Stock ℝ} {c : Cell} {side : Side} {p : Point ℝ}

/-- The coordinate of the near or the far end of a cell along an axis. -/
noncomputable def cellEnd (s : Stock ℝ) (c : Cell) (i : Axis) (far : Bool) : ℝ :=
  (c.along i + if far then 1 else 0) * s.size.cell

/-- The points of a side of a cell: across its axis at one end of the cell, along the others
between both ends. -/
def face (s : Stock ℝ) (c : Cell) (side : Side) : Set (Point ℝ) :=
  {p | p.along side.axis = s.cellEnd c side.axis side.isFar ∧ ∀ i, i ≠ side.axis →
    s.cellEnd c i false ≤ p.along i ∧ p.along i ≤ s.cellEnd c i true}

/-- The four corners of a side of a cell: along the other axes at one of both ends. -/
def faceCorners (s : Stock ℝ) (c : Cell) (side : Side) : Set (Point ℝ) :=
  {p | p.along side.axis = s.cellEnd c side.axis side.isFar ∧ ∀ i, i ≠ side.axis →
    ∃ far, p.along i = s.cellEnd c i far}

theorem along_place (s : Stock ℝ) (c : Cell) (k : Corner) (i : Axis) :
    (s.place c k).along i = s.cellEnd c i (k.along i) := by
  rw [place_eq]
  cases i <;> rfl

/-- The four corners of a side are placed at the four corners of its square. -/
theorem mem_faceCorners_iff :
    p ∈ s.faceCorners c side ↔ ∃ k ∈ side.cornerList, s.place c k = p := by
  simp only [Side.mem_cornerList]
  constructor
  · rintro ⟨haxis, hothers⟩
    have hend (i : Axis) : ∃ far, p.along i = s.cellEnd c i far ∧
        (i = side.axis → far = side.isFar) := by
      by_cases hi : i = side.axis
      · exact ⟨side.isFar, hi ▸ haxis, fun _ => rfl⟩
      · obtain ⟨far, hfar⟩ := hothers i hi
        exact ⟨far, hfar, fun h => absurd h hi⟩
    choose far hfar hside using hend
    have halong (i : Axis) : (Corner.mk (far .x) (far .y) (far .z)).along i = far i := by
      cases i <;> rfl
    refine ⟨⟨far .x, far .y, far .z⟩, ?_, Point.ext_along fun i => ?_⟩
    · rw [halong, hside _ rfl]
    · rw [along_place, halong, hfar]
  · rintro ⟨k, hk, rfl⟩
    exact ⟨by rw [along_place, hk], fun i _ => ⟨_, along_place s c k i⟩⟩

/-- From one end of a cell to the other. -/
theorem exists_share (hcell : 0 < s.size.cell) (c : Cell) (i : Axis) (far : Bool) {x : ℝ} :
    (s.cellEnd c i false ≤ x ∧ x ≤ s.cellEnd c i true) ↔ ∃ u, (0 ≤ u ∧ u ≤ 1) ∧
      x = s.cellEnd c i far + (s.cellEnd c i (!far) - s.cellEnd c i far) * u := by
  have hends : s.cellEnd c i false ≤ s.cellEnd c i true := by
    simp only [cellEnd, if_true, Bool.false_eq_true, if_false]
    linarith
  have hsegment : (s.cellEnd c i false ≤ x ∧ x ≤ s.cellEnd c i true) ↔
      x ∈ segment ℝ (s.cellEnd c i far) (s.cellEnd c i (!far)) := by
    rw [← Set.mem_Icc, ← segment_eq_Icc hends]
    cases far with
    | false => rfl
    | true =>
      rw [segment_symm]
      rfl
  rw [hsegment, segment_eq_image']
  simp only [Set.mem_image, Set.mem_Icc, smul_eq_mul, mul_comm, eq_comm]

/-- The point of a side with the given shares of its first and its last edge. -/
noncomputable def sidePoint (s : Stock ℝ) (c : Cell) (side : Side) (u v : ℝ) : Point ℝ :=
  (s.place c side.corners.1).spanned (s.place c side.corners.2.1) (s.place c side.corners.2.2.2) u v

/-- The first share counts along the axis of the first edge, the second along that of the last. -/
theorem along_sidePoint (s : Stock ℝ) (c : Cell) (side : Side) (u v : ℝ) :
    let far := side.corners.1.along
    (s.sidePoint c side u v).along side.axis = s.cellEnd c side.axis side.isFar ∧
    (s.sidePoint c side u v).along side.run = s.cellEnd c side.run (far side.run) +
      (s.cellEnd c side.run (!far side.run) - s.cellEnd c side.run (far side.run)) * u ∧
    (s.sidePoint c side u v).along side.rise = s.cellEnd c side.rise (far side.rise) +
      (s.cellEnd c side.rise (!far side.rise) - s.cellEnd c side.rise (far side.rise)) * v := by
  obtain ⟨hrun, hrise, hne⟩ := side.axis_ne
  have halong (i : Axis) : (s.sidePoint c side u v).along i =
      let far := side.corners.1.along i
      s.cellEnd c i far +
        ((s.cellEnd c i (far ^^ decide (i = side.run)) - s.cellEnd c i far) * u +
          (s.cellEnd c i (far ^^ decide (i = side.rise)) - s.cellEnd c i far) * v) := by
    obtain ⟨h2, -, h4⟩ := side.along_corners i
    unfold sidePoint
    rw [Point.along_spanned, along_place, along_place, along_place, h2, h4]
  intro far
  refine ⟨?_, ?_, ?_⟩
  · rw [halong]
    simp [hrun.symm, hrise.symm, side.along_axis_corner]
  · rw [halong]
    simp [hne, far]
  · rw [halong]
    simp [hne.symm, far]

/-- The third corner of a side lies across from the first one. -/
theorem sidePoint_one_one (s : Stock ℝ) (c : Cell) (side : Side) :
    s.sidePoint c side 1 1 = s.place c side.corners.2.2.1 := by
  obtain ⟨hrun, hrise, -⟩ := side.axis_ne
  obtain ⟨hpaxis, hprun, hprise⟩ := s.along_sidePoint c side 1 1
  refine Point.ext_along fun i => ?_
  rw [along_place, (side.along_corners i).2.1]
  rcases side.axis_cases i with rfl | rfl | rfl
  · simp [hpaxis, hrun.symm, hrise.symm, side.along_axis_corner]
  · simp [hprun]
  · simp [hprise]

/-- **A side is the parallelogram on its first corner.** -/
theorem face_eq (hcell : 0 < s.size.cell) (c : Cell) (side : Side) : s.face c side =
    {p | ∃ u v, (0 ≤ u ∧ u ≤ 1) ∧ (0 ≤ v ∧ v ≤ 1) ∧ p = s.sidePoint c side u v} := by
  obtain ⟨hrun, hrise, -⟩ := side.axis_ne
  let far := side.corners.1.along
  ext p
  constructor
  · rintro ⟨haxis, hothers⟩
    obtain ⟨u, hu, hpu⟩ := (exists_share hcell c side.run (far side.run)).1 (hothers _ hrun)
    obtain ⟨v, hv, hpv⟩ := (exists_share hcell c side.rise (far side.rise)).1 (hothers _ hrise)
    obtain ⟨hqaxis, hqrun, hqrise⟩ := s.along_sidePoint c side u v
    refine ⟨u, v, hu, hv, Point.ext_along fun i => ?_⟩
    rcases side.axis_cases i with rfl | rfl | rfl
    · exact haxis.trans hqaxis.symm
    · exact hpu.trans hqrun.symm
    · exact hpv.trans hqrise.symm
  · rintro ⟨u, v, hu, hv, rfl⟩
    obtain ⟨hqaxis, hqrun, hqrise⟩ := s.along_sidePoint c side u v
    refine ⟨hqaxis, fun i hi => ?_⟩
    rcases side.axis_cases i with rfl | rfl | rfl
    · exact absurd rfl hi
    · exact (exists_share hcell c _ _).2 ⟨u, hu, hqrun⟩
    · exact (exists_share hcell c _ _).2 ⟨v, hv, hqrise⟩

/-- **A side turns its normal outward.** -/
theorem cross_corners (s : Stock ℝ) (c : Cell) (side : Side) :
    (s.place c side.corners.2.1 - s.place c side.corners.1).cross
      (s.place c side.corners.2.2.2 - s.place c side.corners.1) =
        side.normal.scale (s.size.cell ^ 2) := by
  -- a side for each winding, as its corners are listed
  cases side
  all_goals
    simp only [Side.corners, Side.normal, place_eq, Point.cross, Point.sub_def, Point.scale_def,
      Point.mk.injEq, Scalar.zero_real, Scalar.one_real, Bool.false_eq_true, if_true, if_false]
    refine ⟨by ring, by ring, by ring⟩

theorem scale_normal_ne (hcell : 0 < s.size.cell) (side : Side) :
    (side.normal : Point ℝ).scale (s.size.cell ^ 2) ≠ ⟨0, 0, 0⟩ := by
  intro h
  have haxis := congrArg (fun p => Point.along p side.axis) h
  have hzero : (⟨0, 0, 0⟩ : Point ℝ).along side.axis = 0 := by
    cases side.axis <;> rfl
  simp only [Point.along_scale, Side.along_normal, hzero, Side.step, if_true, mul_eq_zero,
    pow_eq_zero_iff two_ne_zero, hcell.ne', or_false, Int.cast_eq_zero] at haxis
  split at haxis <;> omega

/-- The facets tile a side of a cell: their normals point one step outward and both are wound around
them, their corners are those of the side, together they cover it, and they share its diagonal and
nothing else. -/
structure Tiles (s : Stock ℝ) (c : Cell) (side : Side) (f g : Facet ℝ) : Prop where
  normal_along : ∀ h ∈ [f, g], ∀ i, h.normal.along i = side.step i
  cross_eq : ∀ h ∈ [f, g], (h.b - h.a).cross (h.c - h.a) = h.normal.scale (s.size.cell ^ 2)
  corners_eq : {f.a, f.b, f.c, g.c} = s.faceCorners c side
  diagonal_eq : g.a = f.a ∧ g.b = f.c
  union_eq : Triangle.points ⟨f.a, f.b, f.c⟩ ∪ Triangle.points ⟨g.a, g.b, g.c⟩ = s.face c side
  inter_eq : Triangle.points ⟨f.a, f.b, f.c⟩ ∩ Triangle.points ⟨g.a, g.b, g.c⟩ =
    {p | Point.OnSegment f.a f.c p}

/-- **The two facets of a side tile it.** -/
theorem tiles_sideFacets (hcell : 0 < s.size.cell) (c : Cell) (side : Side) :
    ∃ f g, s.sideFacets c side = [f, g] ∧ s.Tiles c side f g := by
  set a := s.place c side.corners.1 with ha
  set b := s.place c side.corners.2.1 with hb
  set d := s.place c side.corners.2.2.2 with hd
  have hacross : a.spanned b d 1 1 = s.place c side.corners.2.2.1 := s.sidePoint_one_one c side
  have hcross : (b - a).cross (d - a) = side.normal.scale (s.size.cell ^ 2) :=
    s.cross_corners c side
  have hnormal : (b - a).cross (d - a) ≠ ⟨0, 0, 0⟩ := by
    rw [hcross]
    exact scale_normal_ne hcell side
  obtain ⟨hsecond, hfirst⟩ := Point.spanned_sub_cross a b d 1 1
  rw [hcross, Point.scale_one] at hfirst hsecond
  refine ⟨⟨side.normal, a, b, a.spanned b d 1 1⟩, ⟨side.normal, a, a.spanned b d 1 1, d⟩, ?_, ?_⟩
  · rw [hacross]
    rfl
  · constructor
    case normal_along => simpa using side.along_normal
    case cross_eq => simpa using ⟨hfirst, hsecond⟩
    case corners_eq =>
      ext p
      change p ∈ ({a, b, a.spanned b d 1 1, d} : Set (Point ℝ)) ↔ _
      rw [hacross, mem_faceCorners_iff]
      simp only [Side.cornerList, Set.mem_insert_iff, Set.mem_singleton_iff, List.mem_cons,
        List.not_mem_nil, or_false, exists_eq_or_imp, exists_eq_left, ha, hb, hd, eq_comm]
    case diagonal_eq => exact ⟨rfl, rfl⟩
    case union_eq =>
      rw [face_eq hcell]
      exact Triangle.points_union a b d
    case inter_eq => exact Triangle.points_inter hnormal

end Squares

/-! ## Both meshes -/

section Meshes

variable {s : Stock ℝ} {c c' : Cell} {side side' : Side}

/-- Different corners of the grid have different places. -/
theorem along_eq_of_place_eq (hcell : 0 < s.size.cell) {k : Corner}
    (h : s.place c k = s.place c' k) : c = c' := by
  have halong (i : Axis) : c.along i = c'.along i := by
    have hend := congrArg (fun p => Point.along p i) h
    simp only [along_place, cellEnd, mul_eq_mul_right_iff, hcell.ne', or_false, add_left_inj,
      Nat.cast_inj] at hend
    exact hend
  obtain ⟨x, y, z⟩ := c
  obtain ⟨x', y', z'⟩ := c'
  obtain rfl : x = x' := halong .x
  obtain rfl : y = y' := halong .y
  obtain rfl : z = z' := halong .z
  rfl

/-- Both facets of a side have its normal and its first corner. -/
theorem normal_corner_of_mem_sideFacets {f : Facet ℝ} (h : f ∈ s.sideFacets c side) :
    f.normal = side.normal ∧ f.a = s.place c side.corners.1 := by
  simp only [sideFacets, halves, List.mem_cons, List.not_mem_nil, or_false] at h
  rcases h with rfl | rfl
  · exact ⟨rfl, rfl⟩
  · exact ⟨rfl, rfl⟩

/-- Sides that share a facet are one side. -/
theorem eq_of_mem_sideFacets (hcell : 0 < s.size.cell) {f : Facet ℝ}
    (h : f ∈ s.sideFacets c side) (h' : f ∈ s.sideFacets c' side') : (c, side) = (c', side') := by
  obtain ⟨hnormal, hplace⟩ := normal_corner_of_mem_sideFacets h
  obtain ⟨hnormal', hplace'⟩ := normal_corner_of_mem_sideFacets h'
  obtain rfl := Side.normal_injective (hnormal.symm.trans hnormal')
  rw [along_eq_of_place_eq hcell (hplace.symm.trans hplace')]

theorem nodup_sideFacets (hcell : 0 < s.size.cell) (c : Cell) (side : Side) :
    (s.sideFacets c side).Nodup := by
  obtain ⟨f, g, hpair, htiles⟩ := tiles_sideFacets hcell c side
  have hne : f ≠ g := by
    -- one triangle twice would have both its edges along the diagonal
    rintro rfl
    have hmem : f ∈ s.sideFacets c side := by simp [hpair]
    have hcross := htiles.cross_eq f (by simp)
    rw [← htiles.diagonal_eq.2, Point.cross_self,
      (normal_corner_of_mem_sideFacets hmem).1] at hcross
    exact scale_normal_ne hcell side hcross.symm
  simpa [hpair] using hne

/-- **No facet of the surface is written twice.** -/
theorem nodup_surfaceFacets (hcell : 0 < s.size.cell) : s.surfaceFacets.Nodup := by
  rw [surfaceFacets_eq, List.nodup_flatMap]
  refine ⟨fun x _ => nodup_sideFacets hcell x.1 x.2, s.nodup_exposedSides.imp ?_⟩
  intro x y hne
  exact List.disjoint_left.2 fun f hx hy => hne (eq_of_mem_sideFacets hcell hx hy)

/-- **The mesh of top faces** writes the upper sides of the occupied cells. -/
theorem topFacets_eq (s : Stock ℝ) :
    s.topFacets = s.occupiedCells.flatMap fun c => s.sideFacets c .top := by
  have hplace (c : Cell) (x y : Bool) : s.topPlace c ⟨x, y, true⟩ = s.place c ⟨x, y, true⟩ := by
    simp only [topPlace, place, edge, if_true, Scalar.ofCount_real, Nat.cast_succ, add_mul, one_mul]
  simp only [topFacets, sideFacets, halves, Side.corners, hplace]

/-- All facets of a side face the same way. -/
theorem filter_sideFacets (s : Stock ℝ) (c : Cell) (side side' : Side) :
    (s.sideFacets c side).filter (fun f => f.normal = side'.normal) =
      if side = side' then s.sideFacets c side else [] := by
  split
  case isTrue h =>
    refine List.filter_eq_self.2 fun f hf => ?_
    rw [(normal_corner_of_mem_sideFacets hf).1, h, decide_eq_true_eq]
  case isFalse h =>
    refine List.filter_eq_nil_iff.2 fun f hf => ?_
    rwa [(normal_corner_of_mem_sideFacets hf).1, decide_eq_true_eq, Side.normal_injective.eq_iff]

/-- **The facets of the surface that face one way** are those of the exposed sides on that side of
their cells. -/
theorem filter_normal (s : Stock ℝ) (side : Side) :
    (s.surfaceFacets.filter fun f => f.normal = side.normal) =
      (s.occupiedCells.filter fun c => s.IsOpen c side).flatMap fun c => s.sideFacets c side := by
  have hcell (c : Cell) : ((Side.all.filter (s.isExposed c)).flatMap (s.sideFacets c)).filter
      (fun f => f.normal = side.normal) = if s.IsOpen c side then s.sideFacets c side else [] := by
    rw [List.filter_flatMap, flatMap_filter]
    simp only [filter_sideFacets, isExposed_iff]
    cases side <;> simp [Side.all]
  rw [flatMap_filter]
  simp only [surfaceFacets, List.filter_flatMap, decide_eq_true_eq, ← hcell]
  rfl

/-- **The meshes of a stock, read with exact arithmetic.**  The surface has two facets for each side
of an occupied cell beyond which nothing is left, and no facet but these, none of them twice.  They
tile the side and turn their normal outward.  The mesh of top faces has the upper sides of the
occupied cells in their order, and those with nothing above are the facets of the surface that face
upward. -/
theorem surfaceFacets_exposed (s : Stock ℝ) (hcell : 0 < s.size.cell) :
    (s.exposedSides.Nodup ∧
      (∀ c side, (c, side) ∈ s.exposedSides ↔ s.isOccupied c = true ∧ s.IsOpen c side) ∧
      s.surfaceFacets = s.exposedSides.flatMap (fun x => s.sideFacets x.1 x.2) ∧
      s.surfaceFacets.Nodup) ∧
    (∀ c side, ∃ f g, s.sideFacets c side = [f, g] ∧ s.Tiles c side f g) ∧
    (s.occupiedCells.Pairwise Cell.Precedes ∧
      (∀ c, c ∈ s.occupiedCells ↔ s.isOccupied c = true) ∧
      s.topFacets = s.occupiedCells.flatMap fun c => s.sideFacets c .top) ∧
    (s.surfaceFacets.filter fun f => f.normal = ⟨0, 0, 1⟩) =
      (s.occupiedCells.filter fun c => s.IsOpen c .top).flatMap fun c => s.sideFacets c .top := by
  have hup : (⟨0, 0, 1⟩ : Point ℝ) = Side.top.normal := by
    simp [Side.normal, Scalar.zero_real, Scalar.one_real]
  refine ⟨⟨s.nodup_exposedSides, fun c side => mem_exposedSides, s.surfaceFacets_eq,
    nodup_surfaceFacets hcell⟩, tiles_sideFacets hcell,
    ⟨s.pairwise_occupiedCells, fun c => mem_occupiedCells, s.topFacets_eq⟩, ?_⟩
  rw [hup]
  exact s.filter_normal .top

/-- A stair of three unit cells: two in the lower layer and one above the first of them. -/
noncomputable def stair : Stock ℝ where
  size := ⟨2, 1, 2, 1⟩
  nx := 2
  ny := 1
  nz := 2
  cells := #v[true, true, true, false]

/-- The surface of the stair has two of its three upper sides. -/
theorem surfaceFacets_exposed_stair : stair.surfaceFacets.Nodup ∧
    (stair.surfaceFacets.filter fun f => f.normal = ⟨0, 0, 1⟩) =
      stair.sideFacets ⟨1, 0, 0⟩ .top ++ stair.sideFacets ⟨0, 0, 1⟩ .top := by
  obtain ⟨⟨-, -, -, hnodup⟩, -, -, hup⟩ := surfaceFacets_exposed stair (by norm_num [stair])
  have hopen : (stair.occupiedCells.filter fun c => stair.IsOpen c .top) =
      [⟨1, 0, 0⟩, ⟨0, 0, 1⟩] := by
    decide
  rw [hopen] at hup
  exact ⟨hnodup, hup⟩

end Meshes

end Stock

end Machining
