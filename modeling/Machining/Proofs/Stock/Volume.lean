import Mathlib
import Machining.Proofs.Stock.Storage
import Machining.Proofs.Stock.Surface

/-!
# The volume inside the surface of a stock

The volume that a closed surface encloses is the sum, over its facets, of the signed volumes of the
tetrahedra between the facets and the origin.  A side turned over has the opposite sign, so
the sum runs over all sides of the occupied cells, and the six sides of a cell enclose a cube.

* `sum_volume_side` — what the sides of one cell enclose;
* `surfaceFacets_volume` — read with exact arithmetic, the surface of every stock encloses the
  volume of its occupied cells.
-/

set_option autoImplicit false

namespace Machining

/-- The signed volume between a facet and the origin: positive where the facet turns its front
away from the origin. -/
noncomputable def Facet.volume (f : Facet ℝ) : ℝ := f.a.dot (f.b.cross f.c) / 6

/-! ## How far out a side lies -/

namespace Side

/-- The distance of a side from the origin along its outward direction, in cells. -/
def reach (c : Cell) : Side → ℤ
  | left => -c.x
  | right => c.x + 1
  | front => -c.y
  | back => c.y + 1
  | bottom => -c.z
  | top => c.z + 1

/-- A side turned over lies as far out the other way. -/
theorem reach_add_reach_opposite {c d : Cell} {side : Side} (h : side.neighbour? c = some d) :
    side.reach c + side.opposite.reach d = 0 := by
  cases side <;> simp only [neighbour?] at h
  case left | front | bottom =>
    split at h
    · cases h
    · cases h
      simp only [reach, opposite]
      omega
  case right | back | top =>
    cases h
    simp [reach, opposite]

/-- Opposite sides of a cell are one cell apart. -/
theorem sum_reach (c : Cell) : (all.map fun side => side.reach c).sum = 3 := by
  simp only [all, List.map_cons, List.map_nil, List.sum_cons, List.sum_nil, reach]
  ring

end Side

namespace Stock

/-! ## What a side contributes -/

/-- The place of a corner of a cell, counted in cells. -/
theorem place_eq (s : Stock ℝ) (c : Cell) (k : Corner) : s.place c k =
    ⟨(c.x + (if k.x then 1 else 0)) * s.size.cell, (c.y + (if k.y then 1 else 0)) * s.size.cell,
      (c.z + (if k.z then 1 else 0)) * s.size.cell⟩ := by
  obtain ⟨x, y, z⟩ := k
  rw [place_eq_vertex]
  cases x <;> cases y <;> cases z <;> simp [vertex]

/-- **The volume between a side and the origin** is that of a pyramid over the side. -/
theorem sum_volume_halves (s : Stock ℝ) (c : Cell) (side : Side) :
    ((halves side.normal (s.place c) side.corners).map Facet.volume).sum =
      side.reach c * (s.size.cell ^ 3 / 3) := by
  -- a side for each winding: the corners of every one are in the order that faces outward
  cases side
  all_goals
    simp only [halves, Side.corners, List.map_cons, List.map_nil, List.sum_cons, List.sum_nil,
      Facet.volume, Point.dot, Point.cross, place_eq, Bool.false_eq_true, if_true, if_false,
      Side.reach]
    push_cast
    ring

/-- **The sides of a cell enclose a cube.** -/
theorem sum_volume_sides (s : Stock ℝ) (c : Cell) :
    (Side.all.map fun side => (side.reach c : ℝ) * (s.size.cell ^ 3 / 3)).sum =
      s.size.cell ^ 3 := by
  have hsum : (Side.all.map fun side => (side.reach c : ℝ)).sum = 3 := by
    have hreach := congrArg (Int.cast (R := ℝ)) (Side.sum_reach c)
    simpa [Side.all] using hreach
  rw [List.sum_map_mul_right, hsum]
  ring

/-- **The surface encloses the volume of the occupied cells**, read with exact arithmetic, for
every grid, every cell size and every pattern of occupied cells. -/
theorem surfaceFacets_volume (s : Stock ℝ) :
    (s.surfaceFacets.map Facet.volume).sum = s.occupiedCount * s.size.cell ^ 3 := by
  have hopposite (c : Cell) (side : Side) (d : Cell) (h : side.neighbour? c = some d) :
      (side.reach c : ℝ) * (s.size.cell ^ 3 / 3) +
        side.opposite.reach d * (s.size.cell ^ 3 / 3) = 0 := by
    have hreach : (side.reach c : ℝ) + side.opposite.reach d = 0 := by
      exact_mod_cast Side.reach_add_reach_opposite h
    rw [← add_mul, hreach, zero_mul]
  calc (s.surfaceFacets.map Facet.volume).sum
      = (s.occupiedCells.map fun c => (Side.all.map fun side =>
          (side.reach c : ℝ) * (s.size.cell ^ 3 / 3)).sum).sum :=
        sum_surfaceFacets s Facet.volume s.sum_volume_halves hopposite
    _ = (s.occupiedCells.map fun _ => s.size.cell ^ 3).sum := by
        simp only [sum_volume_sides]
    _ = s.occupiedCount * s.size.cell ^ 3 := by
        rw [List.map_const', List.sum_replicate, nsmul_eq_mul, length_occupiedCells]

end Stock

end Machining
