import Machining.Decimal.Layout
import Machining.Stock.Mesh

/-!
# Meshes as text

A mesh is written as a named solid: for each facet its normal and a loop of three vertices, one
line each, coordinates with their shortest digits, and no line feed at the end.
-/

set_option autoImplicit false

namespace Machining.Stl

variable {α : Type}

/-- Three coordinates with a blank before each. -/
def coordinates (text : α → String) (p : Point α) : String :=
  " " ++ text p.x ++ " " ++ text p.y ++ " " ++ text p.z

/-- The lines of one facet. -/
def facetLines (text : α → String) (f : Facet α) : List String :=
  [" facet normal" ++ coordinates text f.normal,
   "  outer loop",
   "   vertex" ++ coordinates text f.a,
   "   vertex" ++ coordinates text f.b,
   "   vertex" ++ coordinates text f.c,
   "  endloop",
   " endfacet"]

/-- The lines of a solid. -/
def lines (text : α → String) (name : String) (fs : List (Facet α)) : List String :=
  ("solid " ++ name) :: fs.flatMap (facetLines text) ++ ["endsolid " ++ name]

/-- The text of a solid. -/
def write (name : String) (fs : List (Facet Float)) : String :=
  "\n".intercalate (lines Layout.plain.text name fs)

/-- The name of the solid a stock is written as. -/
def solidName : String := "reststock"

/-- A mesh of a stock as text. -/
def ofStock (s : Stock Float) (kind : MeshKind) : String := write solidName (s.facets kind)

end Machining.Stl
