import Machining.Machine.Fault
import Machining.Proofs.Double.Numeral
import Machining.Proofs.Double.Order
import Machining.Proofs.Geometry.Distance

/-!
# What is wrong with a machine

A machine is checked part by part, and the check ends with the first fault.  `Machine.offences`
lists everything that is wrong instead: axis by axis, travel before velocity, then the stock, the
tool and the fixtures.  What the check reports is the head of this list.

Doubles can be undefined.  Velocities, sizes and fixtures are refused then, but travel is refused
only where its ends are the wrong way round, and an undefined end is neither above nor below
another.  So a machine whose check finds nothing can be used, unless an end of its travel is
undefined.

* `StockSize.fault?_eq_none_iff`, `Machine.fault?_eq_none_iff` — the checks one by one;
* `Machine.fault?_eq_head?_offences` — the fault reported is the first one there is;
* `Machine.fault?_exact` — which machines of doubles pass the check.
-/

set_option autoImplicit false

namespace Machining

section Any

variable {α : Type} [Scalar α]

/-- The extent can be covered with cells. -/
def IsExtent (v : α) : Prop := Scalar.isFinite v = true ∧ 0 ≤ v

instance (v : α) : Decidable (IsExtent v) :=
  inferInstanceAs (Decidable (Scalar.isFinite v = true ∧ 0 ≤ v))

theorem Scalar.usable_iff {v : α} :
    usable v = true ↔ isFinite v = true ∧ 0 < v := by
  unfold usable
  rw [Bool.and_eq_true, decide_eq_true_iff]

theorem head?_unless {β : Type} (p : Prop) [Decidable p] (x : β) :
    (if p then [] else [x]).head? = if p then none else some x := by
  split
  · rfl
  · rfl

/-! ## Stock -/

/-- The name of the extent along an axis. -/
def Axis.extentName : Axis → String
  | x => "width"
  | y => "height"
  | z => "depth"

namespace StockSize

omit [Scalar α] in
/-- The extent along an axis. -/
def extent (s : StockSize α) : Axis → α
  | .x => s.width
  | .y => s.height
  | .z => s.depth

theorem extentFault?_eq_ite (name : String) (v : α) :
    extentFault? name v = if IsExtent v then none else some (.extent name v) := by
  unfold extentFault?
  refine if_congr ?_ rfl rfl
  unfold IsExtent
  rw [Bool.and_eq_true, decide_eq_true_iff]

theorem extentFault?_eq_none_iff {name : String} {v : α} :
    extentFault? name v = none ↔ IsExtent v := by
  rw [extentFault?_eq_ite]
  simp

theorem fault?_eq_none_iff {s : StockSize α} : s.fault? = none ↔
    Scalar.usable s.cell = true ∧ IsExtent s.width ∧ IsExtent s.height ∧ IsExtent s.depth := by
  unfold fault?
  by_cases hcell : Scalar.usable s.cell = true
  · rw [if_pos hcell]
    simp only [Option.orElse_eq_orElse, Option.orElse_eq_or, Option.or_eq_none_iff,
      extentFault?_eq_none_iff, hcell, true_and]
  · rw [if_neg hcell]
    simp [hcell]

theorem fault?_eq_none_iff_forall {s : StockSize α} : s.fault? = none ↔
    Scalar.usable s.cell = true ∧ ∀ i, IsExtent (s.extent i) := by
  rw [fault?_eq_none_iff, Axis.forall_iff]
  rfl

/-- All that is wrong with a stock, the cell size before the extents. -/
def offences (s : StockSize α) : List (StockFault α) :=
  (if Scalar.usable s.cell then [] else [.cellSize s.cell]) ++
  Axis.all.flatMap fun i =>
    if IsExtent (s.extent i) then [] else [.extent i.extentName (s.extent i)]

theorem fault?_eq_head?_offences (s : StockSize α) : s.fault? = s.offences.head? := by
  unfold fault? offences
  by_cases hcell : Scalar.usable s.cell = true
  · rw [if_pos hcell, if_pos hcell]
    simp only [Axis.all, List.flatMap_cons, List.flatMap_nil, List.nil_append, List.append_nil,
      List.head?_append, head?_unless, extentFault?_eq_ite, Option.orElse_eq_orElse,
      Option.orElse_eq_or]
    rfl
  · rw [if_neg hcell, if_neg hcell]
    rfl

end StockSize

/-! ## Machines -/

namespace Machine

/-- **The four checks of a machine.** -/
theorem fault?_eq_none_iff {m : Machine α} : m.fault? = none ↔
    (∀ i, m.axisFault? i = none) ∧ m.stock.fault? = none ∧
      Scalar.usable m.tool.diameter = true ∧ m.fixtureFault? = none := by
  have haxes : Axis.all.findSome? m.axisFault? = none ↔ ∀ i, m.axisFault? i = none := by
    rw [List.findSome?_eq_none_iff]
    exact ⟨fun h i => h i (by cases i <;> simp [Axis.all]), fun h i _ => h i⟩
  have htool : m.toolFault? = none ↔ Scalar.usable m.tool.diameter = true := by
    unfold toolFault?
    simp
  unfold fault?
  simp only [Option.orElse_eq_orElse, Option.orElse_eq_or, Option.or_eq_none_iff,
    Option.map_eq_none_iff, haxes, htool]

theorem axisFault?_eq_none_iff {m : Machine α} {i : Axis} : m.axisFault? i = none ↔
    ¬(m.axes.limits i).max < (m.axes.limits i).min ∧
      Scalar.usable (m.axes.limits i).maxVelocity = true := by
  unfold axisFault?
  dsimp only
  split
  · simp [*]
  · simp [*]

theorem fixtureFault?_eq_none_iff {m : Machine α} :
    m.fixtureFault? = none ↔ ∀ f ∈ m.fixtures, f.box.isValid = true := by
  unfold fixtureFault?
  rw [Option.map_eq_none_iff, List.find?_eq_none]
  simp

/-- All that is wrong with an axis, travel before velocity. -/
def axisOffences (m : Machine α) (i : Axis) : List (MachineFault α) :=
  let l := m.axes.limits i
  (if l.max < l.min then [.invertedTravel i l.min l.max] else []) ++
  if Scalar.usable l.maxVelocity then [] else [.invalidVelocity i l.maxVelocity]

/-- All that is wrong with a machine: its axes in order, then the stock, the tool and the
fixtures. -/
def offences (m : Machine α) : List (MachineFault α) :=
  Axis.all.flatMap m.axisOffences ++ m.stock.offences.map .stock ++
  (if Scalar.usable m.tool.diameter then [] else [.invalidTool m.tool.diameter]) ++
  (m.fixtures.filter fun f => !f.box.isValid).map fun f => .invertedFixture f.name

theorem axisFault?_eq_head?_axisOffences (m : Machine α) (i : Axis) :
    m.axisFault? i = (m.axisOffences i).head? := by
  unfold axisFault? axisOffences
  dsimp only
  split
  · rfl
  · rw [List.nil_append, head?_unless]

/-- **The fault that is reported is the first one there is.** -/
theorem fault?_eq_head?_offences (m : Machine α) : m.fault? = m.offences.head? := by
  have haxes : Axis.all.findSome? m.axisFault? = (Axis.all.flatMap m.axisOffences).head? := by
    rw [List.head?_flatMap]
    exact congrArg (Axis.all.findSome? ·) (funext m.axisFault?_eq_head?_axisOffences)
  have htool : m.toolFault? = (if Scalar.usable m.tool.diameter = true then []
      else [MachineFault.invalidTool m.tool.diameter]).head? := by
    rw [head?_unless]
    rfl
  unfold fault? offences fixtureFault?
  simp only [List.head?_append, List.head?_map, List.head?_filter, Option.orElse_eq_orElse,
    Option.orElse_eq_or, Option.or_assoc, haxes, htool, StockSize.fault?_eq_head?_offences]

end Machine

end Any

/-! ## Machines of doubles -/

/-- A box that is touched has ends that are defined. -/
theorem Box.defined_of_touches {b : Box Float} {p : Point Float} {r : Float}
    (h : b.touches p r = true) (i : Axis) :
    (b.min.along i).isNaN = false ∧ (b.max.along i).isNaN = false := by
  obtain ⟨hmin, hmax⟩ := touches_iff_along.1 h i
  exact ⟨((Double.le_iff_not_lt _ _).1 hmin).2.1, ((Double.le_iff_not_lt _ _).1 hmax).2.2⟩

namespace Machine

/-- What the simulation of a machine relies on. -/
structure IsUsable (m : Machine Float) : Prop where
  envelope_valid : m.envelope.isValid = true
  fixtures_valid : ∀ f ∈ m.fixtures, f.box.isValid = true
  velocity_pos : ∀ i, (m.axes.limits i).maxVelocity.isFinite = true ∧
    0 < (m.axes.limits i).maxVelocity
  cell_pos : m.stock.cell.isFinite = true ∧ 0 < m.stock.cell
  diameter_pos : m.tool.diameter.isFinite = true ∧ 0 < m.tool.diameter
  extent_nonneg : ∀ i, (m.stock.extent i).isFinite = true ∧ 0 ≤ m.stock.extent i

variable {m : Machine Float}

/-- A valid envelope needs ends that are defined as well as the right way round. -/
theorem envelope_isValid_iff : m.envelope.isValid = true ↔
    ∀ i, ¬(m.axes.limits i).max < (m.axes.limits i).min ∧
      (m.axes.limits i).min.isNaN = false ∧ (m.axes.limits i).max.isNaN = false := by
  have halong := m.along_envelope
  rw [Box.isValid_iff_along]
  refine forall_congr' fun i => ?_
  rw [(halong i).1, (halong i).2, Double.le_iff_not_lt]

/-- **The check of a machine** reports the first fault there is, in the order of the axes, stock,
tool and fixtures.  A machine is fit for use exactly if the check finds nothing and no end of its
travel is undefined. -/
theorem fault?_exact (m : Machine Float) :
    m.fault? = m.offences.head? ∧
    (m.IsUsable ↔ m.fault? = none ∧ ∀ i, (m.axes.limits i).min.isNaN = false ∧
      (m.axes.limits i).max.isNaN = false) := by
  refine ⟨m.fault?_eq_head?_offences, ?_⟩
  rw [fault?_eq_none_iff, fixtureFault?_eq_none_iff, StockSize.fault?_eq_none_iff_forall]
  simp only [axisFault?_eq_none_iff, Scalar.usable_iff]
  constructor
  · intro h
    have htravel := envelope_isValid_iff.1 h.envelope_valid
    exact ⟨⟨fun i => ⟨(htravel i).1, h.velocity_pos i⟩,
      ⟨h.cell_pos, h.extent_nonneg⟩, h.diameter_pos, h.fixtures_valid⟩, fun i => (htravel i).2⟩
  · rintro ⟨⟨haxes, ⟨hcell, hextents⟩, hdiameter, hfixtures⟩, hdefined⟩
    exact {
      envelope_valid := envelope_isValid_iff.2 fun i => ⟨(haxes i).1, hdefined i⟩
      fixtures_valid := hfixtures
      velocity_pos := fun i => (haxes i).2
      cell_pos := hcell
      diameter_pos := hdiameter
      extent_nonneg := hextents }

/-- A machine whose X axis begins nowhere. -/
def undefinedTravel : Machine Float :=
  { Machine.default with axes := ⟨{ AxisLimits.default with min := 0 / 0 }, .default, .default⟩ }

/-- Its check finds nothing, though its envelope is no box and holds no point. -/
theorem fault?_misses_undefinedTravel :
    undefinedTravel.fault? = none ∧ undefinedTravel.envelope.isValid = false ∧
    ∀ p, undefinedTravel.envelope.contains p = false := by
  refine ⟨by decide +kernel, by decide +kernel, ?_⟩
  intro p
  rw [← Bool.not_eq_true]
  intro h
  have hundefined : undefinedTravel.envelope.min.x.isNaN = true := by decide +kernel
  have hdefined : undefinedTravel.envelope.min.x.isNaN = false := (Box.defined_of_touches h .x).1
  exact Bool.noConfusion (hdefined.symm.trans hundefined)

end Machine

end Machining
