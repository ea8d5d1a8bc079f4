import Machining.Machine.Fault

/-!
# Stock

The stock block is a grid of cubic cells, each either occupied or removed.  Cells are stored along
X first, then Y, then Z, and the grid never changes its size, which the type of `Stock.cells`
records.

* `Grid.index_lt` — a cell of the grid has its place in the store;
* `Stock.ofSize` — the full block, unless its cells are more than a word counts.
-/

set_option autoImplicit false

namespace Machining

/-- A cell by its position along each axis. -/
structure Cell where
  x : Nat
  y : Nat
  z : Nat
  deriving Repr, DecidableEq, Inhabited

/-- A block of cells: its extents, the edge of a cell, and the number of cells along each axis. -/
structure Grid (α : Type) where
  size : StockSize α
  nx : Nat
  ny : Nat
  nz : Nat
  deriving Repr, DecidableEq, Inhabited

namespace Grid

variable {α : Type}

/-- The number of cells. -/
def count (g : Grid α) : Nat := g.nx * g.ny * g.nz

/-- The cell lies in the grid. -/
def holds (g : Grid α) (c : Cell) : Prop := c.x < g.nx ∧ c.y < g.ny ∧ c.z < g.nz

instance (g : Grid α) (c : Cell) : Decidable (g.holds c) :=
  inferInstanceAs (Decidable (c.x < g.nx ∧ c.y < g.ny ∧ c.z < g.nz))

/-- The place of a cell in the store. -/
def index (g : Grid α) (c : Cell) : Nat := c.z * g.nx * g.ny + c.y * g.nx + c.x

theorem index_lt {g : Grid α} {c : Cell} (h : g.holds c) : g.index c < g.count := by
  obtain ⟨hx, hy, hz⟩ := h
  unfold index count
  have h1 : c.y * g.nx + c.x < g.ny * g.nx := by
    calc c.y * g.nx + c.x < c.y * g.nx + g.nx := by omega
      _ = (c.y + 1) * g.nx := by rw [Nat.succ_mul]
      _ ≤ g.ny * g.nx := Nat.mul_le_mul_right _ hy
  calc c.z * g.nx * g.ny + c.y * g.nx + c.x
      < c.z * g.nx * g.ny + g.ny * g.nx := by omega
    _ = (c.z + 1) * (g.nx * g.ny) := by
        rw [Nat.succ_mul, Nat.mul_assoc, Nat.mul_comm g.ny g.nx]
    _ ≤ g.nz * (g.nx * g.ny) := Nat.mul_le_mul_right _ hz
    _ = g.nx * g.ny * g.nz := Nat.mul_comm _ _

/-- The cells in storage order. -/
def cells (g : Grid α) : List Cell :=
  (List.range g.nz).flatMap fun z =>
    (List.range g.ny).flatMap fun y => (List.range g.nx).map fun x => ⟨x, y, z⟩

end Grid

/-- A block of cells and, for each of them in storage order, whether it is occupied or has been
removed. -/
structure Stock (α : Type) extends Grid α where
  cells : Vector Bool (nx * ny * nz)

namespace Stock

variable {α : Type}

/-- A cell is occupied; none outside the grid is. -/
def isOccupied (s : Stock α) (c : Cell) : Bool :=
  if h : s.toGrid.holds c then s.cells.get ⟨s.toGrid.index c, Grid.index_lt h⟩ else false

/-- The stock without some cells of its grid. -/
def clear (s : Stock α) (cs : List Cell) : Stock α :=
  { s with cells := cs.foldl (fun v c => v.setIfInBounds (s.toGrid.index c) false) s.cells }

/-- The number of cells. -/
def cellCount (s : Stock α) : Nat := s.cells.size

/-- The number of occupied cells. -/
def occupiedCount (s : Stock α) : Nat := s.cells.toList.count true

/-- The number of removed cells. -/
def removedCount (s : Stock α) : Nat := s.cellCount - s.occupiedCount

/-- The occupied cells in storage order. -/
def occupiedCells (s : Stock α) : List Cell := s.toGrid.cells.filter s.isOccupied

/-- The block with every cell occupied. -/
def full (g : Grid α) : Stock α := { g with cells := Vector.replicate _ true }

variable [Scalar α]

/-- The volume of the removed cells. -/
def removedVolume (s : Stock α) : α :=
  Scalar.ofCount s.removedCount * (s.size.cell * s.size.cell * s.size.cell)

/-- The share of removed cells. -/
def removedFraction (s : Stock α) : α :=
  Scalar.ofCount s.removedCount / Scalar.ofCount s.cellCount

/-- The number of cells that cover an extent, at least one. -/
def cellsAlong (extent cell : α) : Nat := max (Scalar.ceilCount (extent / cell)) 1

/-- A product that fits in a word. -/
def wordProduct? (a b : Nat) : Option Nat := if a * b < UInt64.size then some (a * b) else none

/-- The grid of a stock block, or what keeps it from forming one. -/
def gridOfSize (size : StockSize α) : Except (StockFault α) (Grid α) :=
  match size.fault? with
  | some f => .error f
  | none =>
    let nx := cellsAlong size.width size.cell
    let ny := cellsAlong size.height size.cell
    let nz := cellsAlong size.depth size.cell
    match (wordProduct? nx ny).bind fun n => wordProduct? n nz with
    | some _ => .ok ⟨size, nx, ny, nz⟩
    | none => .error (.tooLarge nx ny nz)

/-- The full block of the given size, or what keeps it from forming a grid. -/
def ofSize (size : StockSize α) : Except (StockFault α) (Stock α) := (gridOfSize size).map full

end Stock

end Machining
