import Machining.Collision.Event
import Machining.Decimal.Layout
import Machining.Text.Csv

/-!
# Collision reports

The events of a run as a table of comma separated fields, one record per event under a header, and
the figures drawn from them.
-/

set_option autoImplicit false

namespace Machining.Report

variable {α : Type}

/-- There is nothing to report. -/
def isClean (es : List (Event α)) : Bool := es.isEmpty

/-- The number of events of a kind. -/
def count (es : List (Event α)) (k : EventKind) : Nat := es.countP fun e => e.kind == k

/-- Put a name at the end of a list unless the list has it. -/
def addName (names : List String) (name : String) : List String :=
  if names.contains name then names else names ++ [name]

/-- The obstacles met, each once, in the order they were first met. -/
def obstacles (es : List (Event α)) : List String :=
  es.foldl (fun names e => addName names e.obstacle) []

/-- The header of the table. -/
def header : String := "kind,time_s,line,pair,x,y,z"

/-- The record of an event: the time with six decimals, the coordinates with their shortest
digits. -/
def record (e : Event Float) : String :=
  ",".intercalate
    [e.kind.name, fixedText 6 e.time, Numeral.text e.line, Csv.fieldText e.pair,
      Layout.plain.text e.point.x, Layout.plain.text e.point.y, Layout.plain.text e.point.z]

/-- The whole table, without a line feed at its end. -/
def table (es : List (Event Float)) : String := "\n".intercalate (header :: es.map record)

end Machining.Report
