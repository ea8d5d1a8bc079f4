import Machining.Proofs.Geometry.Distance
import Machining.Proofs.Stock.Footprint

/-!
# The cells of a ball

At each of its places the ball looks only at the cells of a box, and along each axis only at the
positions that are left when both ends of the box are kept within the grid.  Read with exact
arithmetic this misses nothing: a centre in reach of the ball lies half a cell above the lower end
of its cell, so the position of its cell is between the rounded ends of the box.  A box that lies
outside the grid, in part or as a whole, holds the cells in reach as well, and a negative radius
reaches none.

* `Grid.span?_eq_clamped` — the positions looked at, with ends rounded and then clamped;
* `Grid.mem_ball_iff` — a ball clears the cells whose centres it reaches;
* `Grid.mem_stepPoints_iff` — the places of the ball along a segment;
* `Stock.carve_eq_carvePlain` — the boxed scan carves as a scan of the whole grid does;
* `Stock.carve_exact` — what a carving leaves, cell by cell.
-/

set_option autoImplicit false

namespace Machining

namespace Grid

/-! ## Positions along an axis -/

section Span

variable {lo hi cell : ℝ} {n i : ℕ}

/-- The ends of the interval, rounded down and then kept within the grid. -/
theorem span?_eq_clamped (hn : 0 < n) : span? lo hi cell n =
    if max ⌊lo / cell⌋ 0 ≤ min ⌊hi / cell⌋ (n - 1 : ℕ) then
      some ((max ⌊lo / cell⌋ 0).toNat, (min ⌊hi / cell⌋ (n - 1 : ℕ)).toNat)
    else none := by
  unfold span?
  dsimp only
  rw [Scalar.zero_real, if_pos le_rfl]
  show (if hi / cell < 0 then none else if ⌊lo / cell⌋₊ ≤ min ⌊hi / cell⌋₊ (n - 1) then
    some (⌊lo / cell⌋₊, min ⌊hi / cell⌋₊ (n - 1)) else none) = _
  have hfirst : (max ⌊lo / cell⌋ 0).toNat = ⌊lo / cell⌋₊ := by
    rw [← Int.floor_toNat]
    omega
  by_cases hneg : hi / cell < 0
  · have hlast : ⌊hi / cell⌋ < 0 := Int.floor_lt.2 (by exact_mod_cast hneg)
    rw [if_pos hneg, if_neg (by omega)]
  · have hlast : 0 ≤ ⌊hi / cell⌋ := Int.floor_nonneg.2 (not_lt.1 hneg)
    have hmin : (min ⌊hi / cell⌋ (n - 1 : ℕ)).toNat = min ⌊hi / cell⌋₊ (n - 1) := by
      rw [← Int.floor_toNat]
      omega
    have hiff : ⌊lo / cell⌋₊ ≤ min ⌊hi / cell⌋₊ (n - 1) ↔
        max ⌊lo / cell⌋ 0 ≤ min ⌊hi / cell⌋ (n - 1 : ℕ) := by
      rw [← hfirst, ← hmin]
      omega
    rw [if_neg hneg, hfirst, hmin]
    exact if_congr hiff rfl rfl

/-- A position of the grid between the rounded ends is looked at. -/
theorem exists_mem_span? (hin : i < n) (hfirst : ⌊lo / cell⌋ ≤ i) (hlast : i ≤ ⌊hi / cell⌋) :
    ∃ first last, span? lo hi cell n = some (first, last) ∧ i ∈ between first last := by
  have hbetween : max ⌊lo / cell⌋ 0 ≤ min ⌊hi / cell⌋ (n - 1 : ℕ) := by omega
  refine ⟨_, _, (span?_eq_clamped (by omega)).trans (if_pos hbetween), ?_⟩
  rw [between, List.mem_range'_1]
  omega

/-- The position of a cell whose centre is in reach is looked at. -/
theorem exists_mem_span?_of_abs_le {p radius : ℝ} (hcell : 0 < cell) (hin : i < n)
    (h : |(i + 1 / 2) * cell - p| ≤ radius) : ∃ first last,
      span? (p - radius) (p + radius) cell n = some (first, last) ∧ i ∈ between first last := by
  obtain ⟨hbelow, habove⟩ := abs_le.1 h
  have hlo : (p - radius) / cell ≤ i + 1 / 2 := by
    rw [div_le_iff₀ hcell]
    linarith
  have hhi : i + 1 / 2 ≤ (p + radius) / cell := by
    rw [le_div_iff₀ hcell]
    linarith
  apply exists_mem_span? hin
  · -- half a cell above `i` the next position has not begun
    rw [← Int.lt_add_one_iff, Int.floor_lt]
    push_cast
    linarith
  · rw [Int.le_floor]
    push_cast
    linarith

end Span

/-! ## Cells -/

section Cells

variable {α : Type} [Scalar α] {g : Grid α} {c : Cell} {p : Point α} {radius : α}

theorem mem_reached_iff {xs ys zs : List ℕ} : c ∈ g.reached p radius xs ys zs ↔
    (c.x ∈ xs ∧ c.y ∈ ys ∧ c.z ∈ zs) ∧ (g.centre c).distance p ≤ radius := by
  constructor
  · intro h
    refine ⟨mem_reached h, ?_⟩
    unfold reached at h
    simp only [List.mem_flatMap, List.mem_filterMap, Option.ite_none_right_eq_some] at h
    obtain ⟨z, -, y, -, x, -, hreach, hc⟩ := h
    cases hc
    exact hreach
  · rintro ⟨⟨hx, hy, hz⟩, hreach⟩
    unfold reached
    simp only [List.mem_flatMap, List.mem_filterMap, Option.ite_none_right_eq_some]
    exact ⟨c.z, hz, c.y, hy, c.x, hx, hreach, rfl⟩

/-- A ball clears no cell that it does not reach. -/
theorem distance_le_of_mem_ball (h : c ∈ g.ball p radius) : (g.centre c).distance p ≤ radius := by
  unfold ball at h
  split at h
  · exact (mem_reached_iff.1 h).2
  · cases h

/-- All cells of the grid that the ball reaches. -/
def plainBall (g : Grid α) (p : Point α) (radius : α) : List Cell :=
  g.cells.filter fun c => (g.centre c).distance p ≤ radius

theorem mem_plainBall_iff :
    c ∈ g.plainBall p radius ↔ g.holds c ∧ (g.centre c).distance p ≤ radius := by
  unfold plainBall
  rw [List.mem_filter, mem_cells, decide_eq_true_iff]

end Cells

section Exact

variable {g : Grid ℝ} {c : Cell}

theorem centre_real (g : Grid ℝ) (c : Cell) : g.centre c =
    ⟨(c.x + 1 / 2) * g.size.cell, (c.y + 1 / 2) * g.size.cell, (c.z + 1 / 2) * g.size.cell⟩ := by
  have hhalf : (0.5 : ℝ) = 1 / 2 := by norm_num
  unfold centre
  rw [← hhalf]
  rfl

/-- **A ball clears the cells whose centres it reaches**, wherever it is. -/
theorem mem_ball_iff (hcell : 0 < g.size.cell) (hc : g.holds c) {p : Point ℝ} {radius : ℝ} :
    c ∈ g.ball p radius ↔ (g.centre c).distance p ≤ radius := by
  refine ⟨distance_le_of_mem_ball, fun hreach => ?_⟩
  obtain ⟨hcx, hcy, hcz⟩ := hc
  have halong (i : Axis) : |(g.centre c).along i - p.along i| ≤ radius := by
    rw [abs_sub_comm]
    exact (Point.abs_along_sub_le _ _ i).trans hreach
  rw [centre_real] at halong
  obtain ⟨x0, x1, hxs, hx⟩ := exists_mem_span?_of_abs_le (p := p.x) hcell hcx (halong .x)
  obtain ⟨y0, y1, hys, hy⟩ := exists_mem_span?_of_abs_le (p := p.y) hcell hcy (halong .y)
  obtain ⟨z0, z1, hzs, hz⟩ := exists_mem_span?_of_abs_le (p := p.z) hcell hcz (halong .z)
  have hball : g.ball p radius =
      g.reached p radius (between x0 x1) (between y0 y1) (between z0 z1) := by
    unfold ball
    rw [hxs, hys, hzs]
  rw [hball]
  exact mem_reached_iff.2 ⟨⟨hx, hy, hz⟩, hreach⟩

/-! ## Steps -/

theorem steps_real (g : Grid ℝ) (start target : Point ℝ) :
    g.steps start target = max 1 ⌈start.distance target / (g.size.cell / 2)⌉₊ := by
  have hhalf : g.size.cell * (0.5 : ℝ) = g.size.cell / 2 := by
    norm_num
    ring
  rw [max_comm, ← hhalf]
  rfl

/-- **The places of the ball along a segment** divide it evenly. -/
theorem mem_stepPoints_iff {start target p : Point ℝ} : p ∈ g.stepPoints start target ↔
    ∃ k ≤ g.steps start target, p = start.lerp target (k / g.steps start target) := by
  unfold stepPoints
  simp only [List.mem_map, List.mem_range, Nat.lt_succ_iff, Point.blend_eq_lerp,
    Scalar.ofCount_real, eq_comm]

/-- The footprint of a segment: the cells of the grid with a centre in reach of some step. -/
theorem mem_footprint_iff (hcell : 0 < g.size.cell) (hc : g.holds c) {start target : Point ℝ}
    {radius : ℝ} : c ∈ g.footprint start target radius ↔
      ∃ k ≤ g.steps start target,
        (g.centre c).distance (start.lerp target (k / g.steps start target)) ≤ radius := by
  unfold footprint
  rw [List.mem_flatMap]
  constructor
  · rintro ⟨p, hp, hmem⟩
    obtain ⟨k, hk, rfl⟩ := mem_stepPoints_iff.1 hp
    exact ⟨k, hk, distance_le_of_mem_ball hmem⟩
  · rintro ⟨k, hk, hreach⟩
    exact ⟨_, mem_stepPoints_iff.2 ⟨k, hk, rfl⟩, (mem_ball_iff hcell hc).2 hreach⟩

end Exact

end Grid

/-! ## Carving -/

namespace Stock

/-- The stock after the ball has moved along a segment, with a look at every cell of the grid at
each of its places. -/
def carvePlain {α : Type} [Scalar α] (s : Stock α) (start target : Point α) (radius : α) :
    Stock α :=
  (s.toGrid.stepPoints start target).foldl (fun s p => s.clear (s.toGrid.plainBall p radius)) s

variable {s : Stock ℝ}

/-- **The boxed scan carves as the plain one does.** -/
theorem carve_eq_carvePlain (hcell : 0 < s.size.cell) (start target : Point ℝ) (radius : ℝ) :
    s.carve start target radius = s.carvePlain start target radius := by
  unfold carvePlain
  rw [carve_eq_clear, foldl_clear s _ fun g p => g.plainBall p radius]
  refine eq_of_isOccupied rfl fun c => ?_
  have hplain (d : Cell) (hd : d ∈ (s.toGrid.stepPoints start target).flatMap
      fun p => s.toGrid.plainBall p radius) : s.toGrid.holds d := by
    obtain ⟨p, -, hmem⟩ := List.mem_flatMap.1 hd
    exact (Grid.mem_plainBall_iff.1 hmem).1
  -- both clear cells of the grid only, and there they agree place by place
  rw [isOccupied_clear fun hc _ hd => Grid.holds_of_mem_footprint hc hd,
    isOccupied_clear fun _ d hd => hplain d hd]
  refine and_congr_right fun hocc => ?_
  have hc := holds_of_isOccupied hocc
  simp only [Grid.footprint, List.mem_flatMap, Grid.mem_ball_iff hcell hc,
    Grid.mem_plainBall_iff, hc, true_and]

/-- What a carving leaves: the cells whose centres are out of reach at every step. -/
theorem isOccupied_carve_real (hcell : 0 < s.size.cell) {start target : Point ℝ} {radius : ℝ}
    {c : Cell} : (s.carve start target radius).isOccupied c = true ↔
      s.isOccupied c = true ∧ ∀ k ≤ s.toGrid.steps start target, radius <
        (s.toGrid.centre c).distance (start.lerp target (k / s.toGrid.steps start target)) := by
  rw [isOccupied_carve]
  refine and_congr_right fun hocc => ?_
  rw [Grid.mem_footprint_iff hcell (holds_of_isOccupied hocc)]
  simp only [not_exists, not_and, not_le]

/-- **Carving with a box loses and gains nothing.**  The stock is the one that a scan of the whole
grid leaves: a cell stays exactly if it was there and its centre is farther than the radius from
every place of the ball along the segment, of which there is one for each half cell. -/
theorem carve_exact (hcell : 0 < s.size.cell) (start target : Point ℝ) (radius : ℝ) :
    let n := max 1 ⌈start.distance target / (s.size.cell / 2)⌉₊
    s.carve start target radius = s.carvePlain start target radius ∧
    ∀ c, (s.carve start target radius).isOccupied c = true ↔
      s.isOccupied c = true ∧ ∀ k ≤ n, radius <
        Point.distance ⟨(c.x + 1 / 2) * s.size.cell, (c.y + 1 / 2) * s.size.cell,
          (c.z + 1 / 2) * s.size.cell⟩ (start.lerp target (k / n)) := by
  refine ⟨carve_eq_carvePlain hcell start target radius, fun c => ?_⟩
  rw [isOccupied_carve_real hcell, Grid.centre_real, Grid.steps_real]

/-- From outside a block of three cells a ball moves in as far as the border of the second one,
whose centre it just reaches. -/
theorem carve_exact_threeCells :
    let s : Stock ℝ := full ⟨⟨3, 1, 1, 1⟩, 3, 1, 1⟩
    0 < s.size.cell ∧
    (s.carve ⟨-2, 1 / 2, 1 / 2⟩ ⟨1, 1 / 2, 1 / 2⟩ (1 / 2)).isOccupied ⟨1, 0, 0⟩ = false ∧
    (s.carve ⟨-2, 1 / 2, 1 / 2⟩ ⟨1, 1 / 2, 1 / 2⟩ (1 / 2)).isOccupied ⟨2, 0, 0⟩ = true := by
  intro s
  have hcell : 0 < s.size.cell := one_pos
  obtain ⟨-, hcells⟩ := carve_exact hcell ⟨-2, 1 / 2, 1 / 2⟩ ⟨1, 1 / 2, 1 / 2⟩ (1 / 2)
  refine ⟨hcell, ?_, ?_⟩
  · -- the last place of the ball is the target, half a cell away from the centre
    rw [← Bool.not_eq_true, hcells]
    rintro ⟨-, hfar⟩
    refine absurd (hfar _ le_rfl) (not_lt.2 ((Point.distance_le_iff (by norm_num)).2 ?_))
    rw [div_self (by positivity), Point.lerp_one, Point.distance_sq]
    norm_num [s, full]
  · -- along X the ball stays at least one and a half cells away from the centre
    have haway (u : ℝ) (hu : u ≤ 1) : 1 / 2 < Point.distance
        ⟨((2 : ℕ) + 1 / 2) * s.size.cell, ((0 : ℕ) + 1 / 2) * s.size.cell,
          ((0 : ℕ) + 1 / 2) * s.size.cell⟩
        (Point.lerp ⟨-2, 1 / 2, 1 / 2⟩ ⟨1, 1 / 2, 1 / 2⟩ u) := by
      refine lt_of_lt_of_le ?_ (Point.abs_along_sub_le _ _ .x)
      rw [abs_sub_comm]
      refine lt_of_lt_of_le ?_ (le_abs_self _)
      simp only [Point.along, Point.lerp, s, full]
      norm_num
      linarith
    rw [hcells]
    refine ⟨isOccupied_full.2 (by decide), fun k hk => ?_⟩
    exact haway _ (div_le_one_of_le₀ (Nat.cast_le.2 hk) (Nat.cast_nonneg _))

end Stock

end Machining
