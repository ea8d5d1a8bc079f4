import Machining.Stock.Grid

/-!
# Meshes of the remaining stock

Two triangle meshes: the top face of every occupied cell, and the closed surface made of the faces
between an occupied cell and empty space.  A face is a square with its corners in the order that
turns its normal outward; it is cut along one diagonal into two triangles.

* `Stock.topFacets` — the open mesh of top faces;
* `Stock.surfaceFacets` — the closed surface.
-/

set_option autoImplicit false

namespace Machining

/-- A triangle of a mesh, and the direction it faces. -/
structure Facet (α : Type) where
  normal : Point α
  a : Point α
  b : Point α
  c : Point α
  deriving Repr, BEq, DecidableEq, Inhabited

/-- Which mesh is written: the top face of every occupied cell, or every face between an occupied
cell and empty space. -/
inductive MeshKind
  | topFaces
  | surface
  deriving Repr, BEq, DecidableEq, Inhabited

/-- The short name of a mesh kind. -/
def MeshKind.name : MeshKind → String
  | topFaces => "top_faces"
  | surface => "surface"

/-- The sides of a cell. -/
inductive Side
  | left
  | right
  | front
  | back
  | bottom
  | top
  deriving Repr, DecidableEq, Inhabited

/-- A corner of a cell: on each axis, whether it is the far one. -/
structure Corner where
  x : Bool
  y : Bool
  z : Bool
  deriving Repr, DecidableEq, Inhabited

namespace Side

/-- The sides in the order in which they are written. -/
def all : List Side := [left, right, front, back, bottom, top]

/-- The four corners of a side, counterclockwise as seen from outside. -/
def corners : Side → Corner × Corner × Corner × Corner
  | left => (⟨false, false, false⟩, ⟨false, false, true⟩, ⟨false, true, true⟩,
      ⟨false, true, false⟩)
  | right => (⟨true, false, true⟩, ⟨true, false, false⟩, ⟨true, true, false⟩, ⟨true, true, true⟩)
  | front => (⟨false, false, false⟩, ⟨true, false, false⟩, ⟨true, false, true⟩,
      ⟨false, false, true⟩)
  | back => (⟨false, true, true⟩, ⟨true, true, true⟩, ⟨true, true, false⟩, ⟨false, true, false⟩)
  | bottom => (⟨true, false, false⟩, ⟨false, false, false⟩, ⟨false, true, false⟩,
      ⟨true, true, false⟩)
  | top => (⟨false, false, true⟩, ⟨true, false, true⟩, ⟨true, true, true⟩, ⟨false, true, true⟩)

/-- The cell beyond a side; none below the first cell of an axis. -/
def neighbour? (c : Cell) : Side → Option Cell
  | left => if c.x = 0 then none else some { c with x := c.x - 1 }
  | right => some { c with x := c.x + 1 }
  | front => if c.y = 0 then none else some { c with y := c.y - 1 }
  | back => some { c with y := c.y + 1 }
  | bottom => if c.z = 0 then none else some { c with z := c.z - 1 }
  | top => some { c with z := c.z + 1 }

/-- The outward direction of a side. -/
def normal {α : Type} [Scalar α] : Side → Point α
  | left => ⟨-1, 0, 0⟩
  | right => ⟨1, 0, 0⟩
  | front => ⟨0, -1, 0⟩
  | back => ⟨0, 1, 0⟩
  | bottom => ⟨0, 0, -1⟩
  | top => ⟨0, 0, 1⟩

end Side

namespace Stock

variable {α : Type}

/-- The side of the cell faces empty space. -/
def isExposed (s : Stock α) (c : Cell) (side : Side) : Bool :=
  match side.neighbour? c with
  | none => true
  | some d => !s.isOccupied d

/-- A square as two triangles. -/
def halves (normal : Point α) (place : Corner → Point α)
    (corners : Corner × Corner × Corner × Corner) : List (Facet α) :=
  let (a, b, c, d) := corners
  [⟨normal, place a, place b, place c⟩, ⟨normal, place a, place c, place d⟩]

variable [Scalar α]

/-- The coordinate of the near or the far end of the cell at a position. -/
def edge (cell : α) (i : Nat) (far : Bool) : α :=
  let near := Scalar.ofCount i * cell
  if far then near + cell else near

/-- The place of a corner of a cell. -/
def place (s : Stock α) (c : Cell) (k : Corner) : Point α :=
  ⟨edge s.size.cell c.x k.x, edge s.size.cell c.y k.y, edge s.size.cell c.z k.z⟩

/-- The place of a corner of the top face of a cell, its height counted in whole cells. -/
def topPlace (s : Stock α) (c : Cell) (k : Corner) : Point α :=
  ⟨edge s.size.cell c.x k.x, edge s.size.cell c.y k.y, Scalar.ofCount (c.z + 1) * s.size.cell⟩

/-- The top face of every occupied cell. -/
def topFacets (s : Stock α) : List (Facet α) :=
  s.occupiedCells.flatMap fun c =>
    halves Side.top.normal (s.topPlace c) Side.top.corners

/-- Every face between an occupied cell and empty space. -/
def surfaceFacets (s : Stock α) : List (Facet α) :=
  s.occupiedCells.flatMap fun c =>
    (Side.all.filter (s.isExposed c)).flatMap fun side =>
      halves side.normal (s.place c) side.corners

/-- The facets of a mesh. -/
def facets (s : Stock α) : MeshKind → List (Facet α)
  | .topFaces => s.topFacets
  | .surface => s.surfaceFacets

end Stock

end Machining
