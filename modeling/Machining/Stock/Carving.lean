import Machining.Stock.Grid
import Machining.Trajectory.Sample

/-!
# Carving

The tool is a ball that moves along a segment in steps of half a cell.  At each step it clears the
cells whose centres it reaches; only the cells of the box around the ball are looked at.  Which
cells a step clears depends on the grid alone, never on what is left of the stock.

* `Stock.carve` — one segment;
* `Stock.remove` — the segments between consecutive samples that a `RemovalPolicy` lets cut.
-/

set_option autoImplicit false

namespace Machining

/-- Which segments of a trajectory remove material: all of them, or those that end on a feed move
with the spindle turning. -/
inductive RemovalPolicy
  | allMotion
  | cuttingOnly
  deriving Repr, BEq, DecidableEq, Inhabited

/-- The short name of a policy. -/
def RemovalPolicy.name : RemovalPolicy → String
  | allMotion => "all_motion"
  | cuttingOnly => "cutting_only"

/-- The segment that ends on the sample removes material. -/
def RemovalPolicy.removes {α : Type} (p : RemovalPolicy) (finish : Sample α) : Bool :=
  match p with
  | allMotion => true
  | cuttingOnly => finish.isCutting

variable {α : Type} [Scalar α]

namespace Grid

/-- The centre of a cell. -/
@[inline] def centre (g : Grid α) (c : Cell) : Point α :=
  ⟨(Scalar.ofCount c.x + 0.5) * g.size.cell, (Scalar.ofCount c.y + 0.5) * g.size.cell,
    (Scalar.ofCount c.z + 0.5) * g.size.cell⟩

/-- The positions of the cells along one axis that meet the interval from `lo` to `hi`: first and
last, within the grid.  An undefined end leaves its side of the grid open. -/
def span? (lo hi cell : α) (cells : Nat) : Option (Nat × Nat) :=
  let last := hi / cell
  if last < 0 then none
  else
    let first := Scalar.floorCount (lo / cell)
    let last := if last ≤ last then min (Scalar.floorCount last) (cells - 1) else cells - 1
    if first ≤ last then some (first, last) else none

/-- The numbers from `first` to `last`. -/
def between (first last : Nat) : List Nat := List.range' first (last + 1 - first)

/-- The cells of a box that the ball reaches with their centres. -/
@[specialize] def reached (g : Grid α) (p : Point α) (radius : α) (xs ys zs : List Nat) :
    List Cell :=
  zs.flatMap fun z => ys.flatMap fun y => xs.filterMap fun x =>
    let c : Cell := ⟨x, y, z⟩
    if (g.centre c).distance p ≤ radius then some c else none

/-- The cells whose centres a ball reaches. -/
@[specialize] def ball (g : Grid α) (p : Point α) (radius : α) : List Cell :=
  match span? (p.x - radius) (p.x + radius) g.size.cell g.nx,
    span? (p.y - radius) (p.y + radius) g.size.cell g.ny,
    span? (p.z - radius) (p.z + radius) g.size.cell g.nz with
  | some (x0, x1), some (y0, y1), some (z0, z1) =>
    g.reached p radius (between x0 x1) (between y0 y1) (between z0 z1)
  | _, _, _ => []

/-- The number of steps along a segment. -/
def steps (g : Grid α) (start target : Point α) : Nat :=
  max (Scalar.ceilCount (start.distance target / (g.size.cell * 0.5))) 1

/-- The places of the ball along a segment, both ends included. -/
def stepPoints (g : Grid α) (start target : Point α) : List (Point α) :=
  let n := g.steps start target
  (List.range (n + 1)).map fun s =>
    start.blend target (Scalar.ofCount s / Scalar.ofCount n)

end Grid

namespace Stock

/-- The stock after the ball has moved along a segment. -/
@[specialize] def carve (s : Stock α) (start target : Point α) (radius : α) : Stock α :=
  (s.toGrid.stepPoints start target).foldl (fun s p => s.clear (s.toGrid.ball p radius)) s

/-- The segments of a trajectory that remove material, in axis coordinates. -/
def segments (policy : RemovalPolicy) (xs : List (Sample α)) : List (Point α × Point α) :=
  ((xs.zip xs.tail).filter fun (_, b) => policy.removes b).map fun (a, b) => (a.axes, b.axes)

/-- The stock after a tool has followed a trajectory. -/
@[specialize] def remove (s : Stock α) (xs : List (Sample α)) (diameter : α)
    (policy : RemovalPolicy) : Stock α :=
  (segments policy xs).foldl (fun s (a, b) => s.carve a b (diameter / 2)) s

end Stock

end Machining
