import Machining.Machine.Document
import Machining.Stock.Grid

/-!
# Stocks in documents
-/

set_option autoImplicit false

namespace Machining.Stock

/-- A stock as a record: its size, its grid, and each cell as one or zero in storage order. -/
def toNode (s : Stock Float) : Node :=
  .record [("dimensions", s.size.toNode), ("nx", .ofCount s.nx), ("ny", .ofCount s.ny),
    ("nz", .ofCount s.nz),
    ("voxels", .list (s.cells.toList.map fun occupied => .ofCount (if occupied then 1 else 0)))]

/-- The JSON text of a stock. -/
def toJson (s : Stock Float) : String := Json.write s.toNode

end Machining.Stock
