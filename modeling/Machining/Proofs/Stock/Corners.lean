import Mathlib
import Machining.Proofs.Double.Multiple
import Machining.Proofs.Stock.Storage
import Machining.Proofs.Stock.Surface

/-!
# The corners of a grid in a mesh

Up to eight cells share a corner of the grid, and each writes the corner from its own position: as
its near end, a multiple of the cell size, or as its far end, one cell size beyond a multiple; the
mesh of top faces counts heights in multiples throughout.  Rounded, the far end of a cell need not
be the near end of the next.  Where it is, for all the cells of a grid, every corner has one place
in all meshes, and only there.

* `Stock.Writes` — which place a mesh writes for which corner of the grid;
* `Stock.corners_agree_iff` — the corners of all stocks on a grid have one place each exactly if
  the grid is evenly spaced;
* `Stock.corners_disagree_sevenCells` — seven cells of a tenth of a millimetre are not;
* `Grid.evenlySpaced_of_short` — a grid is evenly spaced if its cell size and its cell counts have
  few enough bits together.
-/

set_option autoImplicit false

namespace Machining

/-! ## What is written for a corner -/

/-- The corner of the grid that is a corner of the cell, by its position along each axis. -/
def Cell.gridCorner (c : Cell) (k : Corner) : ℕ × ℕ × ℕ :=
  (c.x + k.x.toNat, c.y + k.y.toNat, c.z + k.z.toNat)

/-- The corners of a side as a list. -/
def Side.cornerList (side : Side) : List Corner :=
  let (a, b, c, d) := side.corners
  [a, b, c, d]

/-- The vertices of a facet. -/
def Facet.vertices {α : Type} (f : Facet α) : List (Point α) := [f.a, f.b, f.c]

/-- The triangles of a square have the vertices of the square. -/
theorem exists_mem_halves {α : Type} {normal p : Point α} {place : Corner → Point α}
    {side : Side} : (∃ f ∈ Stock.halves normal place side.corners, p ∈ f.vertices) ↔
      ∃ k ∈ side.cornerList, place k = p := by
  rcases h : side.corners with ⟨a, b, c, d⟩
  simp only [Side.cornerList, h, Stock.halves, List.mem_cons, List.not_mem_nil, or_false,
    exists_eq_or_imp, exists_eq_left, Facet.vertices]
  grind

namespace Stock

section Writes

variable {α : Type} [Scalar α] {s : Stock α}

/-- The mesh of a kind writes the point for the corner of the grid. -/
inductive Writes (s : Stock α) : MeshKind → ℕ × ℕ × ℕ → Point α → Prop
  | surface {c : Cell} {side : Side} {k : Corner} (hc : c ∈ s.occupiedCells)
      (hside : s.isExposed c side = true) (hk : k ∈ side.cornerList) :
      Writes s .surface (c.gridCorner k) (s.place c k)
  | topFaces {c : Cell} {k : Corner} (hc : c ∈ s.occupiedCells) (hk : k ∈ Side.top.cornerList) :
      Writes s .topFaces (c.gridCorner k) (s.topPlace c k)

/-- The vertices of a mesh are the points written for the corners of the grid. -/
theorem exists_mem_facets {kind : MeshKind} {p : Point α} :
    (∃ f ∈ s.facets kind, p ∈ f.vertices) ↔ ∃ v, s.Writes kind v p := by
  cases kind with
  | topFaces =>
    constructor
    · rintro ⟨f, hf, hp⟩
      obtain ⟨c, hc, hf⟩ := List.mem_flatMap.1 hf
      obtain ⟨k, hk, rfl⟩ := exists_mem_halves.1 ⟨f, hf, hp⟩
      exact ⟨_, .topFaces hc hk⟩
    · rintro ⟨v, hv⟩
      cases hv with
      | topFaces hc hk =>
        obtain ⟨f, hf, hp⟩ := exists_mem_halves.2 ⟨_, hk, rfl⟩
        exact ⟨f, List.mem_flatMap.2 ⟨_, hc, hf⟩, hp⟩
  | surface =>
    constructor
    · rintro ⟨f, hf, hp⟩
      obtain ⟨c, hc, hf⟩ := List.mem_flatMap.1 hf
      obtain ⟨side, hside, hf⟩ := List.mem_flatMap.1 hf
      obtain ⟨k, hk, rfl⟩ := exists_mem_halves.1 ⟨f, hf, hp⟩
      exact ⟨_, .surface hc (List.mem_filter.1 hside).2 hk⟩
    · rintro ⟨v, hv⟩
      cases hv with
      | surface hc hside hk =>
        obtain ⟨f, hf, hp⟩ := exists_mem_halves.2 ⟨_, hk, rfl⟩
        have hexposed := List.mem_filter.2 ⟨Side.mem_all _, hside⟩
        exact ⟨f, List.mem_flatMap.2 ⟨_, hc, List.mem_flatMap.2 ⟨_, hexposed, hf⟩⟩, hp⟩

/-- Each corner of the grid has one place in all meshes. -/
def CornersAgree (s : Stock α) : Prop :=
  ∀ (v : ℕ × ℕ × ℕ) (kind kind' : MeshKind) (p q : Point α),
    s.Writes kind v p → s.Writes kind' v q → p = q

end Writes

end Stock

/-! ## Even spacing -/

namespace Grid

variable {α : Type} [Scalar α]

/-- The far end of the cell at a position is the near end of the next one. -/
def Meets (cell : α) (i : ℕ) : Prop := Stock.edge cell i true = Stock.edge cell (i + 1) false

/-- The cells of the grid meet along each axis.  Along Z the last cell counts too: a top face has
its height where a further cell would begin. -/
structure EvenlySpaced (g : Grid α) : Prop where
  alongX : ∀ i, i + 1 < g.nx → Meets g.size.cell i
  alongY : ∀ j, j + 1 < g.ny → Meets g.size.cell j
  alongZ : ∀ k, k < g.nz → Meets g.size.cell k

/-- The coordinate is an end of one of `n` cells, at a position of the grid. -/
def IsEnd (cell : α) (n i : ℕ) (x : α) : Prop :=
  ∃ (j : ℕ) (far : Bool), j < n ∧ j + far.toNat = i ∧ x = Stock.edge cell j far

/-- Where the cells meet, a position has one coordinate. -/
theorem IsEnd.unique {cell x y : α} {n i : ℕ} (h : ∀ j, j + 1 < n → Meets cell j)
    (hx : IsEnd cell n i x) (hy : IsEnd cell n i y) : x = y := by
  obtain ⟨j, far, hj, rfl, rfl⟩ := hx
  obtain ⟨j', far', hj', heq, rfl⟩ := hy
  cases far <;> cases far' <;> simp only [Bool.toNat_false, Bool.toNat_true, add_zero] at heq
  case false.false => rw [heq]
  case false.true =>
    subst heq
    exact (h j' hj).symm
  case true.false =>
    subst heq
    exact h j hj'
  case true.true =>
    obtain rfl : j' = j := by omega
    rfl

end Grid

namespace Stock

section Agreement

variable {α : Type} [Scalar α] {s : Stock α}

/-- Whatever is written for a corner are ends of cells at its positions. -/
theorem Writes.isEnd {kind : MeshKind} {v : ℕ × ℕ × ℕ} {p : Point α} (h : s.Writes kind v p) :
    Grid.IsEnd s.size.cell s.nx v.1 p.x ∧ Grid.IsEnd s.size.cell s.ny v.2.1 p.y ∧
      Grid.IsEnd s.size.cell (s.nz + 1) v.2.2 p.z := by
  cases h with
  | @surface c side k hc hside hk =>
    obtain ⟨hx, hy, hz⟩ := holds_of_isOccupied (mem_occupiedCells.1 hc)
    exact ⟨⟨c.x, k.x, hx, rfl, rfl⟩, ⟨c.y, k.y, hy, rfl, rfl⟩, ⟨c.z, k.z, by omega, rfl, rfl⟩⟩
  | @topFaces c k hc hk =>
    obtain ⟨hx, hy, hz⟩ := holds_of_isOccupied (mem_occupiedCells.1 hc)
    have htop : k.z = true := by
      simp only [Side.cornerList, Side.corners, List.mem_cons, List.not_mem_nil, or_false] at hk
      rcases hk with rfl | rfl | rfl | rfl <;> rfl
    refine ⟨⟨c.x, k.x, hx, rfl, rfl⟩, ⟨c.y, k.y, hy, rfl, rfl⟩, ⟨c.z + 1, false, by omega, ?_, ?_⟩⟩
    · simp [Cell.gridCorner, htop]
    · rfl

/-- **On an evenly spaced grid the corners agree**, whatever is left of the stock. -/
theorem cornersAgree_of_evenlySpaced (h : s.toGrid.EvenlySpaced) : s.CornersAgree := by
  rintro v kind kind' ⟨px, py, pz⟩ ⟨qx, qy, qz⟩ hp hq
  obtain ⟨hpx, hpy, hpz⟩ := hp.isEnd
  obtain ⟨hqx, hqy, hqz⟩ := hq.isEnd
  obtain rfl := hpx.unique h.alongX hqx
  obtain rfl := hpy.unique h.alongY hqy
  obtain rfl := hpz.unique (fun k hk => h.alongZ k (by omega)) hqz
  rfl

omit [Scalar α] in
theorem mem_occupiedCells_full {g : Grid α} {c : Cell} (h : g.holds c) :
    c ∈ (full g).occupiedCells :=
  mem_occupiedCells.2 (isOccupied_full.2 h)

/-- **The full block tells**: where its corners agree, its grid is evenly spaced. -/
theorem evenlySpaced_of_cornersAgree {g : Grid α} (hx : 0 < g.nx) (hy : 0 < g.ny) (hz : 0 < g.nz)
    (h : (full g).CornersAgree) : g.EvenlySpaced := by
  have hwrites {c : Cell} (hc : g.holds c) (side : Side) (k : Corner)
      (hside : (full g).isExposed c side = true) (hk : k ∈ side.cornerList) :
      (full g).Writes .surface (c.gridCorner k) ((full g).place c k) :=
    .surface (mem_occupiedCells_full hc) hside hk
  refine ⟨fun i hi => ?_, fun j hj => ?_, fun k hk => ?_⟩
  · -- the fronts of two cells side by side
    have hthis : g.holds ⟨i, 0, 0⟩ := ⟨Nat.lt_of_succ_lt hi, hy, hz⟩
    have hnext : g.holds ⟨i + 1, 0, 0⟩ := ⟨hi, hy, hz⟩
    have hfar := hwrites hthis .front ⟨true, false, false⟩ rfl (by decide)
    have hnear := hwrites hnext .front ⟨false, false, false⟩ rfl (by decide)
    exact congrArg Point.x (h _ _ _ _ _ hfar hnear)
  · -- the left sides of two cells one behind the other
    have hthis : g.holds ⟨0, j, 0⟩ := ⟨hx, Nat.lt_of_succ_lt hj, hz⟩
    have hnext : g.holds ⟨0, j + 1, 0⟩ := ⟨hx, hj, hz⟩
    have hfar := hwrites hthis .left ⟨false, true, false⟩ rfl (by decide)
    have hnear := hwrites hnext .left ⟨false, false, false⟩ rfl (by decide)
    exact congrArg Point.y (h _ _ _ _ _ hfar hnear)
  · -- one cell in both meshes
    have hthis : g.holds ⟨0, 0, k⟩ := ⟨hx, hy, hk⟩
    have hside := hwrites hthis .left ⟨false, false, true⟩ rfl (by decide)
    have hmem : (⟨false, false, true⟩ : Corner) ∈ Side.top.cornerList := by decide
    have htop := Writes.topFaces (mem_occupiedCells_full hthis) hmem
    exact congrArg Point.z (h _ _ _ _ _ hside htop)

/-- A block that is admitted has cells along each axis. -/
theorem pos_of_gridOfSize {size : StockSize α} {g : Grid α} (h : gridOfSize size = .ok g) :
    0 < g.nx ∧ 0 < g.ny ∧ 0 < g.nz := by
  unfold gridOfSize at h
  split at h
  · cases h
  · dsimp only at h
    split at h
    · cases h
      simp only [cellsAlong]
      omega
    · cases h

/-- **When the corners of a grid agree**: all stocks of the size, whatever is left of them, have one
place for each corner of the grid in all meshes exactly if the grid is evenly spaced. -/
theorem corners_agree_iff (size : StockSize α) :
    (∀ s : Stock α, gridOfSize size = .ok s.toGrid → s.CornersAgree) ↔
      ∀ g, gridOfSize size = .ok g → g.EvenlySpaced := by
  constructor
  · intro h g hg
    obtain ⟨hx, hy, hz⟩ := pos_of_gridOfSize hg
    exact evenlySpaced_of_cornersAgree hx hy hz (h (full g) hg)
  · intro h s hs
    exact cornersAgree_of_evenlySpaced (h _ hs)

end Agreement

/-- The sixth of seven cells of a tenth of a millimetre ends before the seventh begins. -/
theorem corners_disagree_sevenCells :
    ¬∀ (size : StockSize Float) (s : Stock Float),
      gridOfSize size = .ok s.toGrid → s.CornersAgree := by
  intro h
  have hgrid : gridOfSize (⟨0.7, 0.1, 0.1, 0.1⟩ : StockSize Float) =
      .ok ⟨⟨0.7, 0.1, 0.1, 0.1⟩, 7, 1, 1⟩ := by
    decide +kernel
  have hgap : edge (0.1 : Float) 5 true ≠ edge 0.1 6 false := by
    decide +kernel
  have hspaced := evenlySpaced_of_cornersAgree (by decide) (by decide) (by decide)
    (h _ (full ⟨⟨0.7, 0.1, 0.1, 0.1⟩, 7, 1, 1⟩) hgrid)
  exact hgap (hspaced.alongX 5 (by decide))

end Stock

/-- **A grid is evenly spaced** if the significant bits of its cell size leave room for those of its
cell counts: if the size is `a * 2 ^ f`, and no axis has `2 ^ 53 / a` cells or more. -/
theorem Grid.evenlySpaced_of_short {g : Grid Float} {a : ℕ} {f : ℤ} (ha : 0 < a)
    (hcell : Double.exact g.size.cell = a * 2 ^ f) (hx : g.nx * a < 2 ^ 53)
    (hy : g.ny * a < 2 ^ 53) (hz : g.nz * a < 2 ^ 53) : g.EvenlySpaced := by
  have hmeets : ∀ {n i : ℕ}, n * a < 2 ^ 53 → i < n → Meets g.size.cell i := by
    intro n i hn hi
    exact Double.ofCount_mul_add ha hcell ((Nat.mul_le_mul_right a hi).trans_lt hn)
  exact ⟨fun i hi => hmeets hx (by omega), fun j hj => hmeets hy (by omega),
    fun k hk => hmeets hz hk⟩

end Machining
