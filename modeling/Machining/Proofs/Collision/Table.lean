import Machining.Collision.Report
import Machining.Proofs.Decimal.Characters
import Machining.Proofs.Text.Csv

/-!
# Reading a collision report

The table of a report can be read by any reader of comma separated fields.  Its numbers and the
kinds of events need no quotes, and of the names, which may be any text, the quotes tell where they
end.  So a reader finds the header and then one record for each event.

* `Report.record_eq` — the record of an event is its seven fields, each written as a field;
* `Report.read?_table` — the whole table.
-/

set_option autoImplicit false

namespace Machining

/-- Number texts need no quotes. -/
theorem Csv.fieldText_of_isNumeric {s : String} (h : ∀ c ∈ s.toList, isNumeric c = true) :
    fieldText s = s := by
  apply fieldText_of_plain
  rw [List.any_eq_false]
  intro c hc
  have hne {d : Char} (hd : isNumeric d = false) : c ≠ d := by
    rintro rfl
    exact Bool.false_ne_true (hd.symm.trans (h c hc))
  have hcomma : c ≠ ',' := hne (by decide)
  have hquote : c ≠ '"' := hne (by decide)
  have hreturn : c ≠ '\r' := hne (by decide)
  have hfeed : c ≠ '\n' := hne (by decide)
  simp [isSpecial, hcomma, hquote, hreturn, hfeed]

namespace Report

/-- The fields of the record of an event. -/
def fields (e : Event Float) : List String :=
  [e.kind.name, fixedText 6 e.time, Numeral.text e.line, e.mover ++ ":" ++ e.obstacle,
    Layout.plain.text e.point.x, Layout.plain.text e.point.y, Layout.plain.text e.point.z]

/-- **The record of an event** is made of its fields; only the names may need quotes. -/
theorem record_eq (e : Event Float) : record e = Csv.recordText (fields e) := by
  have hkind : Csv.fieldText e.kind.name = e.kind.name := by
    apply Csv.fieldText_of_plain
    cases e.kind with
    | travelLimit => decide
    | collision => decide
  have hline : Csv.fieldText (Numeral.text e.line) = Numeral.text e.line := by
    apply Csv.fieldText_of_isNumeric
    rw [Numeral.text, String.toList_ofList]
    exact isNumeric_digits e.line
  have htime : Csv.fieldText (fixedText 6 e.time) = fixedText 6 e.time :=
    Csv.fieldText_of_isNumeric (isNumeric_fixedText 6 e.time)
  have hcoordinate (x : Float) : Csv.fieldText (Layout.plain.text x) = Layout.plain.text x :=
    Csv.fieldText_of_isNumeric (Layout.isNumeric_plain x)
  unfold record Csv.recordText fields
  simp only [List.map_cons, List.map_nil, hkind, htime, hline, hcoordinate]
  rfl

/-- The names of the fields. -/
def fieldNames : List String := ["kind", "time_s", "line", "pair", "x", "y", "z"]

theorem header_eq : header = Csv.recordText fieldNames := by decide

/-- **The table of a report reads back**, whatever the names of movers and obstacles hold: one
record with the names of the fields, and then, in the order of the events, one record of seven
fields for each. -/
theorem read?_table (es : List (Event Float)) :
    Csv.read? (table es) = some (["kind", "time_s", "line", "pair", "x", "y", "z"] ::
      es.map fun e => [e.kind.name, fixedText 6 e.time, Numeral.text e.line,
        e.mover ++ ":" ++ e.obstacle, Layout.plain.text e.point.x, Layout.plain.text e.point.y,
        Layout.plain.text e.point.z]) := by
  have htable : table es =
      "\n".intercalate ((fieldNames :: es.map fields).map Csv.recordText) := by
    have hrecords : es.map record = (es.map fields).map Csv.recordText := by
      rw [List.map_map]
      exact List.map_congr_left fun e _ => record_eq e
    rw [table, hrecords, header_eq, List.map_cons]
  have hfields : ∀ fs ∈ fieldNames :: es.map fields, fs ≠ [] := by
    rw [List.forall_mem_cons, List.forall_mem_map]
    exact ⟨List.cons_ne_nil _ _, fun e _ => List.cons_ne_nil _ _⟩
  rw [htable]
  exact Csv.read?_intercalate (List.cons_ne_nil _ _) hfields

end Report

end Machining
