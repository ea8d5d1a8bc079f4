import Machining.Proofs.Double.Ceiling
import Machining.Proofs.Machine.Faults
import Machining.Proofs.Stock.Construction
import Machining.Proofs.Stock.Storage

/-!
# Covering a block with cells

Along each axis a block is covered with as few cells as reach its extent, but with at least one.
With exact arithmetic that leaves less than one cell to spare.  In doubles the quotient of extent
and cell size is rounded, or infinite, before it is counted, and the count stops at the largest
word; a block whose three counts multiply beyond the words is refused.

* `Stock.cellsAlong_eq_countedCells` — the number of cells along an extent of doubles;
* `Stock.isLeast_cellsAlong` — the number of cells along an extent, read with exact arithmetic;
* `Stock.ofSize_covers` — which blocks are refused, and the cells of every other.
-/

set_option autoImplicit false

namespace Machining

/-- The number of cells along an axis. -/
def Grid.along {α : Type} (g : Grid α) : Axis → ℕ
  | .x => g.nx
  | .y => g.ny
  | .z => g.nz

namespace Stock

section Any

variable {α : Type}

/-- A full block with the given numbers of cells along the axes. -/
structure FullOf (s : Stock α) (size : StockSize α) (n : Axis → ℕ) : Prop where
  size_eq : s.size = size
  along_eq : ∀ i, s.toGrid.along i = n i
  flags_eq : s.cells.toList = List.replicate (n .x * n .y * n .z) true
  isOccupied_iff : ∀ c, s.isOccupied c = true ↔ c.x < n .x ∧ c.y < n .y ∧ c.z < n .z

variable [Scalar α] {size : StockSize α}

theorem along_gridOf (size : StockSize α) (i : Axis) :
    (gridOf size).along i = cellsAlong (size.extent i) size.cell := by
  cases i with
  | x => rfl
  | y => rfl
  | z => rfl

theorem fullOf_full (size : StockSize α) :
    (full (gridOf size)).FullOf size (gridOf size).along where
  size_eq := rfl
  along_eq _ := rfl
  flags_eq := Vector.toList_replicate
  isOccupied_iff _ := isOccupied_full

end Any

/-! ## Doubles -/

/-- The cells along an extent of doubles: the least count that is not below the quotient, from one
to the largest word; the largest word also stands for a quotient beyond the doubles. -/
def countedCells (extent cell : Float) : ℕ :=
  if (extent / cell).isFinite then
    max (min ⌈Double.exact (extent / cell)⌉₊ Double.largestCount) 1
  else Double.largestCount

theorem cellsAlong_eq_countedCells {extent cell : Float} (hextent : IsExtent extent)
    (hcell : Scalar.usable cell = true) : cellsAlong extent cell = countedCells extent cell := by
  obtain ⟨hfinite, hpos⟩ := Scalar.usable_iff.1 hcell
  unfold cellsAlong countedCells
  rcases Double.quotient_cases hextent.1 hextent.2 hfinite hpos with hquotient | hquotient
  · rw [if_pos hquotient]
    exact congrArg (max · 1) (Double.ceilCount_of_finite hquotient)
  · have hinfinite : ¬(extent / cell).isFinite = true := by
      rw [Double.isFinite_eq, hquotient]
      exact Bool.false_ne_true
    rw [if_neg hinfinite]
    exact congrArg (max · 1) (Double.ceilCount_of_infinite hquotient)

/-- An extent of doubles cannot be covered if it is negative or not finite. -/
theorem not_isExtent_iff {v : Float} : ¬IsExtent v ↔ v < 0 ∨ v.isFinite = false := by
  rw [← Bool.not_eq_true]
  by_cases hfinite : v.isFinite = true
  · have hle := Double.denotes_zero_literal.le_iff (Double.denotes_exact hfinite)
    have hlt := (Double.denotes_exact hfinite).lt_iff Double.denotes_zero_literal
    have hextent : IsExtent v ↔ 0 ≤ Double.exact v := (and_iff_right hfinite).trans hle
    rw [hextent, hlt, not_le]
    exact (or_iff_left (not_not.2 hfinite)).symm
  · exact iff_of_true (fun h => hfinite h.1) (.inr hfinite)

theorem fault?_ne_none_iff {size : StockSize Float} : size.fault? ≠ none ↔
    ¬(size.cell.isFinite = true ∧ 0 < size.cell) ∨
      ∃ i, size.extent i < 0 ∨ (size.extent i).isFinite = false := by
  rw [ne_eq, StockSize.fault?_eq_none_iff_forall, Scalar.usable_iff, not_and_or, not_forall]
  simp only [not_isExtent_iff]
  rfl

/-! ## Exact arithmetic -/

/-- **The least count of cells that cover an extent**, and how much they have to spare. -/
theorem isLeast_cellsAlong (extent : ℝ) {cell : ℝ} (hcell : 0 < cell) :
    IsLeast {n : ℕ | 1 ≤ n ∧ extent ≤ n * cell} (cellsAlong extent cell) ∧
      (0 < extent → cellsAlong extent cell * cell < extent + cell) := by
  have hleast := Scalar.isLeast_ceilCount extent hcell
  refine ⟨hleast, ?_⟩
  intro hextent
  obtain ⟨n, hn⟩ : ∃ n, cellsAlong extent cell = n + 1 :=
    Nat.exists_eq_succ_of_ne_zero (cellsAlong_pos extent cell).ne'
  rw [hn]
  push_cast
  -- one cell less, if any is left, does not reach
  rcases Nat.eq_zero_or_pos n with rfl | hpos
  · rw [Nat.cast_zero]
    linarith
  · have hshort : n * cell < extent := by
      by_contra hreaches
      have hle : cellsAlong extent cell ≤ n := hleast.2 ⟨hpos, not_lt.1 hreaches⟩
      omega
    linarith

/-! ## Blocks -/

/-- **Making a block of cells.**  In doubles a block is refused exactly if the cell size is not
finite and positive, an extent is negative or not finite, or the counts of cells along the axes
have a product beyond the words, and any other block is made full.  Read with exact arithmetic, the
count along each axis is the least from one on with which the cells reach the extent, so that less
than one cell is to spare along an extent that is not zero. -/
theorem ofSize_covers :
    (∀ size : StockSize Float,
      let n (i : Axis) := countedCells (size.extent i) size.cell
      ((∃ f, ofSize size = .error f) ↔
        ¬(size.cell.isFinite = true ∧ 0 < size.cell) ∨
        (∃ i, size.extent i < 0 ∨ (size.extent i).isFinite = false) ∨
        UInt64.size ≤ n .x * n .y * n .z) ∧
      ∀ s, ofSize size = .ok s → s.FullOf size n) ∧
    ∀ size : StockSize ℝ, 0 < size.cell → (∀ i, 0 ≤ size.extent i) → ∃ n : Axis → ℕ,
      (∀ i, IsLeast {k : ℕ | 1 ≤ k ∧ size.extent i ≤ k * size.cell} (n i) ∧
        (0 < size.extent i → n i * size.cell < size.extent i + size.cell)) ∧
      ((∃ f, ofSize size = .error f) ↔ UInt64.size ≤ n .x * n .y * n .z) ∧
      ∀ s, ofSize size = .ok s → s.FullOf size n := by
  refine ⟨?doubles, ?exact⟩
  case doubles =>
    intro size n
    have hcounts (h : size.fault? = none) : (gridOf size).along = n := by
      obtain ⟨hcell, hextents⟩ := StockSize.fault?_eq_none_iff_forall.1 h
      funext i
      rw [along_gridOf]
      exact cellsAlong_eq_countedCells (hextents i) hcell
    constructor
    · rw [exists_error_iff, ← or_assoc, ← fault?_ne_none_iff]
      refine or_congr_right' fun h => ?_
      rw [← hcounts (not_not.1 h)]
      rfl
    · intro s hs
      obtain ⟨hfault, -, rfl⟩ := ofSize_eq_ok_iff.1 hs
      rw [← hcounts hfault]
      exact fullOf_full size
  case exact =>
    intro size hcell hextents
    have hfault : size.fault? = none := by
      rw [StockSize.fault?_eq_none_iff_forall, Scalar.usable_iff]
      unfold IsExtent
      rw [Scalar.zero_real]
      exact ⟨⟨rfl, hcell⟩, fun i => ⟨rfl, hextents i⟩⟩
    refine ⟨(gridOf size).along, ?_, ?_, ?_⟩
    · intro i
      rw [along_gridOf]
      exact isLeast_cellsAlong _ hcell
    · rw [exists_error_iff]
      exact or_iff_right (not_not.2 hfault)
    · intro s hs
      obtain ⟨-, -, rfl⟩ := ofSize_eq_ok_iff.1 hs
      exact fullOf_full size

/-- Three cells cover two and a half, and one cell covers nothing.  In doubles a block may be as
long as a word counts, if it is only one cell wide. -/
theorem ofSize_covers_longBlocks :
    (∃ s, ofSize (⟨5 / 2, 1, 0, 1⟩ : StockSize ℝ) = .ok s ∧ s.nx = 3 ∧ s.ny = 1 ∧ s.nz = 1) ∧
    (∃ s, ofSize (⟨1e300, 0, 0, 1⟩ : StockSize Float) = .ok s ∧ s.nx = UInt64.size - 1) ∧
    ∃ f, ofSize (⟨1e300, 1.5, 0, 1⟩ : StockSize Float) = .error f := by
  obtain ⟨hdoubles, hexact⟩ := ofSize_covers
  refine ⟨?exact, ?long, ?wide⟩
  case exact =>
    have hextents : ∀ i, 0 ≤ (⟨5 / 2, 1, 0, 1⟩ : StockSize ℝ).extent i := by
      rw [Axis.forall_iff]
      norm_num [StockSize.extent]
    obtain ⟨n, hleast, herror, hfull⟩ := hexact ⟨5 / 2, 1, 0, 1⟩ one_pos hextents
    have hthree : IsLeast {k : ℕ | 1 ≤ k ∧ (5 / 2 : ℝ) ≤ k * 1} 3 := by
      refine ⟨by norm_num, ?_⟩
      rintro k ⟨-, hk⟩
      have hlt : (2 : ℝ) < k := by linarith
      exact_mod_cast hlt
    have hone {v : ℝ} (hv : v ≤ 1) : IsLeast {k : ℕ | 1 ≤ k ∧ v ≤ k * 1} 1 :=
      ⟨⟨le_rfl, by simpa using hv⟩, fun k hk => hk.1⟩
    have hx : n .x = 3 := (hleast .x).1.unique hthree
    have hy : n .y = 1 := (hleast .y).1.unique (hone le_rfl)
    have hz : n .z = 1 := (hleast .z).1.unique (hone zero_le_one)
    cases hs : ofSize (⟨5 / 2, 1, 0, 1⟩ : StockSize ℝ) with
    | error f =>
      have hmany := herror.1 ⟨f, hs⟩
      rw [hx, hy, hz] at hmany
      exact absurd hmany (by decide)
    | ok s =>
      have halong := (hfull s hs).along_eq
      exact ⟨s, rfl, (halong .x).trans hx, (halong .y).trans hy, (halong .z).trans hz⟩
  case long =>
    obtain ⟨herror, hfull⟩ := hdoubles ⟨1e300, 0, 0, 1⟩
    rw [Axis.exists_iff] at herror
    cases hs : ofSize (⟨1e300, 0, 0, 1⟩ : StockSize Float) with
    | error f => exact absurd (herror.1 ⟨f, hs⟩) (by decide +kernel)
    | ok s => exact ⟨s, rfl, ((hfull s hs).along_eq .x).trans (by decide +kernel)⟩
  case wide =>
    exact (hdoubles ⟨1e300, 1.5, 0, 1⟩).1.2 (.inr (.inr (by decide +kernel)))

end Stock

end Machining
