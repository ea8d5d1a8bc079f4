import Machining.Proofs.Double.Whole
import Machining.Stock.Carving

/-!
# The cells along one axis

The positions that an interval meets along one axis come from doubles: both ends are divided by the
cell size, rounded down, and kept within the grid while they are still doubles; what is left of an
infinite, undefined or inverted interval is then either empty or the grid's own end.  `Grid.span?`
says the same with counts, which stop at zero and at the largest word by themselves.

* `Grid.clampedSpan?` — the ends kept within the grid as doubles;
* `Grid.span?_eq_clampedSpan?` — both give the same positions, on grids of at most `2 ^ 53` cells
  along the axis.
-/

set_option autoImplicit false

namespace Machining

open Double

namespace Grid

/-- The positions of the cells along one axis that meet the interval from `lo` to `hi`, with the
ends kept within the grid as doubles. -/
def clampedSpan? (lo hi cell : Float) (cells : ℕ) : Option (ℕ × ℕ) :=
  let first := Scalar.greater (floor (lo / cell)) 0
  let last := Scalar.lesser (floor (hi / cell)) (ofCount cells - 1)
  if first ≤ last then some (floorCount first, floorCount last) else none

variable {x : Float} {n : ℕ}

/-! ## The first position -/

theorem max_floor_zero (q : ℚ) : max ((⌊q⌋ : ℤ) : ℚ) 0 = (⌊q⌋₊ : ℕ) := by
  rw [← Int.floor_toNat, ← Int.cast_natCast, Int.toNat_eq_max, Int.cast_max, Int.cast_zero]

/-- The first position as a double: a count, or infinite where the count stops at the largest
word. -/
theorem first_cases (x : Float) :
    Denotes (Scalar.greater (floor x) 0) ⌊exact x⌋₊ ∧ floorCount x = min ⌊exact x⌋₊ largestCount ∨
      reading (Scalar.greater (floor x) 0) = .infinity .positive ∧ floorCount x = largestCount := by
  by_cases hx : x.isFinite = true
  · have hgreater := (denotes_floor hx).greater denotes_zero_literal
    rw [max_floor_zero] at hgreater
    exact Or.inl ⟨hgreater, floorCount_of_finite hx⟩
  · -- an undefined or infinite negative end begins at zero; the other infinite one is kept
    rw [floor_of_not_finite hx, floorCount_eq]
    unfold exact
    rcases not_finite_cases hx with hu | hu | hu
    · rw [(extrema_of_undefined hu 0).1, hu, Nat.floor_zero, Nat.cast_zero]
      exact Or.inl ⟨denotes_zero_literal, rfl⟩
    · rw [(extrema_of_negative hu rfl).1, hu, Nat.floor_zero, Nat.cast_zero]
      exact Or.inl ⟨denotes_zero_literal, rfl⟩
    · rw [(extrema_of_positive hu rfl).1, hu]
      exact Or.inr ⟨rfl, rfl⟩

/-! ## The last position -/

theorem denotes_end (hpos : 0 < n) (hle : n ≤ 2 ^ 53) : Denotes (ofCount n - 1) (n - 1 : ℕ) := by
  have hwhole : ((n : ℕ) : ℚ) - 1 = ((n - 1 : ℕ) : ℤ) := by
    rw [Int.cast_natCast, Nat.cast_sub hpos, Nat.cast_one]
  have hsub := (denotes_ofCount hle).sub denotes_one_literal
    (by rw [hwhole]; exact representable_of_natAbs_le (by omega))
  rwa [hwhole, Int.cast_natCast] at hsub

/-- The last position that `Grid.span?` looks at. -/
def lastPosition (x : Float) (n : ℕ) : ℕ := if x ≤ x then min (floorCount x) (n - 1) else n - 1

/-- The last position as a double is a count, if the interval does not end before the grid. -/
theorem denotes_last (hpos : 0 < n) (hle : n ≤ 2 ^ 53) (hx : ¬x < 0) :
    Denotes (Scalar.lesser (floor x) (ofCount n - 1)) (lastPosition x n) := by
  have hend := denotes_end hpos hle
  unfold lastPosition
  by_cases hfinite : x.isFinite = true
  · have hnonneg : 0 ≤ exact x := by
      rw [(denotes_exact hfinite).lt_iff denotes_zero_literal] at hx
      exact not_lt.1 hx
    have hself : x ≤ x := ((denotes_exact hfinite).le_iff (denotes_exact hfinite)).2 le_rfl
    have hlesser := (denotes_floor hfinite).lesser hend
    rw [← natCast_floor_eq_intCast_floor hnonneg, ← Nat.cast_min] at hlesser
    have hcount : min (floorCount x) (n - 1) = min ⌊exact x⌋₊ (n - 1) := by
      rw [floorCount_of_finite hfinite]
      unfold largestCount UInt64.size
      omega
    rwa [if_pos hself, hcount]
  · rw [floor_of_not_finite hfinite]
    rcases not_finite_cases hfinite with hu | hu | hu
    · have hself : ¬x ≤ x := by
        rw [le_iff, hu]
        nofun
      rw [(extrema_of_undefined hu _).2, if_neg hself]
      exact hend
    · exact absurd (negative_lt hu rfl) hx
    · have hself : x ≤ x := by
        rw [le_iff, hu]
        rfl
      have hcount : floorCount x = largestCount := by
        rw [floorCount_eq, hu]
        rfl
      have hmin : min largestCount (n - 1) = n - 1 := by
        unfold largestCount UInt64.size
        omega
      rw [(extrema_of_positive hu hend.1).2, if_pos hself, hcount, hmin]
      exact hend

/-- Where the interval ends before the grid, the last position is below the first. -/
theorem last_lt_first (hpos : 0 < n) (hle : n ≤ 2 ^ 53) (hx : x < 0) (y : Float) :
    Scalar.lesser (floor x) (ofCount n - 1) < Scalar.greater (floor y) 0 := by
  have hend := denotes_end hpos hle
  by_cases hfinite : x.isFinite = true
  · have hneg : exact x < 0 := ((denotes_exact hfinite).lt_iff denotes_zero_literal).1 hx
    have hlast := (denotes_floor hfinite).lesser hend
    have hbelow : min ((⌊exact x⌋ : ℤ) : ℚ) (n - 1 : ℕ) < 0 :=
      (min_le_left _ _).trans_lt ((Int.floor_le _).trans_lt hneg)
    rcases first_cases y with ⟨hfirst, -⟩ | ⟨hfirst, -⟩
    · exact (hlast.lt_iff hfirst).2 (hbelow.trans_le (Nat.cast_nonneg _))
    · exact lt_positive hfirst hlast.1
  · rw [floor_of_not_finite hfinite]
    rcases not_finite_cases hfinite with hu | hu | hu
    · rw [lt_iff, hu] at hx
      cases hx
    · rw [(extrema_of_negative hu hend.1).2]
      rcases first_cases y with ⟨hfirst, -⟩ | ⟨hfirst, -⟩
      · exact negative_lt hu hfirst.1
      · rw [lt_iff, hu, hfirst]
        rfl
    · rw [lt_iff, hu] at hx
      cases hx

/-! ## Both ends -/

/-- **The positions along an axis** are the same whether the ends of the interval are kept within
the grid as doubles or as counts. -/
theorem span?_eq_clampedSpan? (lo hi cell : Float) (hpos : 0 < n) (hle : n ≤ 2 ^ 53) :
    span? lo hi cell n = clampedSpan? lo hi cell n := by
  unfold clampedSpan?
  dsimp only
  by_cases hneg : hi / cell < 0
  · rw [if_neg (not_le_of_lt (last_lt_first hpos hle hneg _))]
    exact if_pos hneg
  · have hspan : span? lo hi cell n =
        if floorCount (lo / cell) ≤ lastPosition (hi / cell) n then
          some (floorCount (lo / cell), lastPosition (hi / cell) n) else none := if_neg hneg
    have hlast := denotes_last hpos hle hneg
    have hword : lastPosition (hi / cell) n < largestCount := by
      unfold lastPosition largestCount UInt64.size
      split <;> omega
    have hlastCount : floorCount (Scalar.lesser (floor (hi / cell)) (ofCount n - 1)) =
        lastPosition (hi / cell) n := by
      rw [hlast.floorCount, Nat.floor_natCast, min_eq_left hword.le]
    -- the last position is a count by now, so the first one is compared with it as a count, unless
    -- it is infinite, and then the largest word is beyond the grid just as well
    rw [hspan]
    rcases first_cases (lo / cell) with ⟨hfirst, hcount⟩ | ⟨hfirst, hcount⟩
    · have hiff : Scalar.greater (floor (lo / cell)) 0 ≤
          Scalar.lesser (floor (hi / cell)) (ofCount n - 1) ↔
            floorCount (lo / cell) ≤ lastPosition (hi / cell) n := by
        rw [hfirst.le_iff hlast, Nat.cast_le, hcount]
        omega
      have hfirstCount : floorCount (Scalar.greater (floor (lo / cell)) 0) =
          floorCount (lo / cell) := by
        rw [hfirst.floorCount, Nat.floor_natCast, hcount]
      rw [hlastCount, hfirstCount]
      exact if_congr hiff.symm rfl rfl
    · rw [if_neg (not_le_of_lt (lt_positive hfirst hlast.1)), hcount, if_neg (by omega)]

/-- The cells whose centres a ball reaches, looked for between the clamped ends. -/
def clampedBall (g : Grid Float) (p : Point Float) (radius : Float) : List Cell :=
  let cells? : Option (List Cell) := do
    let (x0, x1) ← clampedSpan? (p.x - radius) (p.x + radius) g.size.cell g.nx
    let (y0, y1) ← clampedSpan? (p.y - radius) (p.y + radius) g.size.cell g.ny
    let (z0, z1) ← clampedSpan? (p.z - radius) (p.z + radius) g.size.cell g.nz
    return g.reached p radius (between x0 x1) (between y0 y1) (between z0 z1)
  cells?.getD []

/-- The axes of a grid have cells, and together not more than doubles count one by one. -/
structure Addressable (g : Grid Float) : Prop where
  alongX : 0 < g.nx
  alongY : 0 < g.ny
  alongZ : 0 < g.nz
  count_le : g.count ≤ 2 ^ 53

namespace Addressable

variable {g : Grid Float}

theorem axes_le (h : g.Addressable) : g.nx ≤ 2 ^ 53 ∧ g.ny ≤ 2 ^ 53 ∧ g.nz ≤ 2 ^ 53 := by
  have hxy := Nat.mul_pos h.alongX h.alongY
  have hle : g.nx * g.ny ≤ g.count := Nat.le_mul_of_pos_right _ h.alongZ
  have hx : g.nx ≤ g.nx * g.ny := Nat.le_mul_of_pos_right _ h.alongY
  have hy : g.ny ≤ g.nx * g.ny := Nat.le_mul_of_pos_left _ h.alongX
  have hz : g.nz ≤ g.count := Nat.le_mul_of_pos_left _ hxy
  have := h.count_le
  omega

/-- **The cells of a ball** are found with ends clamped as doubles just as well. -/
theorem ball_eq_clampedBall (h : g.Addressable) (p : Point Float) (radius : Float) :
    g.ball p radius = g.clampedBall p radius := by
  obtain ⟨hx, hy, hz⟩ := h.axes_le
  have hxs := span?_eq_clampedSpan? (p.x - radius) (p.x + radius) g.size.cell h.alongX hx
  have hys := span?_eq_clampedSpan? (p.y - radius) (p.y + radius) g.size.cell h.alongY hy
  have hzs := span?_eq_clampedSpan? (p.z - radius) (p.z + radius) g.size.cell h.alongZ hz
  unfold ball clampedBall
  rw [← hxs, ← hys, ← hzs]
  cases span? (p.x - radius) (p.x + radius) g.size.cell g.nx with
  | none => rfl
  | some xs =>
    cases span? (p.y - radius) (p.y + radius) g.size.cell g.ny with
    | none => rfl
    | some ys => cases span? (p.z - radius) (p.z + radius) g.size.cell g.nz <;> rfl

end Addressable

end Grid

end Machining
