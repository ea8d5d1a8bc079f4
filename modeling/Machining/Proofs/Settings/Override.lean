import Machining.Proofs.Machine.Faults
import Machining.Proofs.Simulation.Trace
import Machining.Proofs.Stock.Construction
import Machining.Settings.Config

/-!
# Overrides

A configuration may replace five numbers of a machine.  Its least values lie above the bounds that
a machine is checked against, so an override that is used can do no harm, and one that is not used
leaves the machine's own number.  Therefore a machine without a fault has none under any
configuration, valid or not, and what may still keep it from being simulated is the number of its
cells.

* `Setting.pos_of_accepts` — accepted doubles are finite and positive;
* `Config.pick_eq_or`, `Config.pick_pick` — what is used in place of a number;
* `Config.override_keeps` — the whole statement for a machine without a fault.
-/

set_option autoImplicit false

namespace Machining

/-! ## Accepted values -/

namespace Setting

theorem mem_all (s : Setting) : s ∈ all := by
  cases s <;> decide

theorem isFinite_least (s : Setting) : (s.least : Float).isFinite = true := by
  cases s <;> decide +kernel

theorem least_pos (s : Setting) : (0 : Float) < s.least := by
  cases s <;> decide +kernel

variable {s : Setting} {v : Float}

/-- **Accepted doubles are finite and positive.** -/
theorem pos_of_accepts (h : s.accepts v = true) : v.isFinite = true ∧ 0 < v := by
  unfold accepts at h
  rw [Bool.and_eq_true, decide_eq_true_iff] at h
  obtain ⟨hfinite, hle⟩ := h
  have hzero : (0 : Float).isFinite = true := rfl
  refine ⟨hfinite, (Double.lt_iff_exact hzero hfinite).2 ?_⟩
  have hpos := (Double.lt_iff_exact hzero s.isFinite_least).1 s.least_pos
  exact hpos.trans_le ((Double.le_iff_exact s.isFinite_least hfinite).1 hle)

theorem usable_of_accepts (h : s.accepts v = true) : Scalar.usable v = true :=
  Scalar.usable_iff.2 (pos_of_accepts h)

theorem isExtent_of_accepts (h : s.accepts v = true) : IsExtent v := by
  obtain ⟨hfinite, hpos⟩ := pos_of_accepts h
  have hzero : (0 : Float).isFinite = true := rfl
  refine ⟨hfinite, (Double.le_iff_exact hzero hfinite).2 ?_⟩
  exact ((Double.lt_iff_exact hzero hfinite).1 hpos).le

end Setting

/-! ## Values in use -/

namespace Config

variable {α : Type} [Scalar α] {c : Config α} {s : Setting} {own v : α}

theorem pick_eq_or (c : Config α) (s : Setting) (own : α) :
    c.pick s own = own ∨ ∃ v, c.value? s = some v ∧ s.accepts v = true ∧ c.pick s own = v := by
  unfold pick
  cases hv : c.value? s with
  | none => exact .inl rfl
  | some v =>
    by_cases haccepts : s.accepts v = true
    · exact .inr ⟨v, rfl, haccepts, if_pos haccepts⟩
    · exact .inl (if_neg haccepts)

/-- What holds of the machine's own number and of accepted overrides holds of what is used. -/
theorem pick_keeps {P : α → Prop} (hown : P own) (haccepts : ∀ v, s.accepts v = true → P v) :
    P (c.pick s own) := by
  rcases c.pick_eq_or s own with hkept | ⟨v, -, hv, hused⟩
  · rwa [hkept]
  · rw [hused]
    exact haccepts v hv

theorem pick_pick (c : Config α) (s : Setting) (own : α) :
    c.pick s (c.pick s own) = c.pick s own := by
  unfold pick
  cases c.value? s with
  | none => rfl
  | some v =>
    dsimp only
    split
    · rfl
    · rfl

/-- A valid configuration has acceptable values only. -/
theorem accepts_of_fault?_eq_none (h : c.fault? = none) (hv : c.value? s = some v) :
    s.accepts v = true := by
  unfold fault? at h
  have hnone := List.find?_eq_none.1 h s s.mem_all
  rw [hv] at hnone
  simpa using hnone

/-- A valid configuration has its overrides used as they are. -/
theorem pick_of_fault?_eq_none (h : c.fault? = none) (hv : c.value? s = some v) :
    c.pick s own = v := by
  unfold pick
  rw [hv]
  exact if_pos (accepts_of_fault?_eq_none h hv)

end Config

/-! ## Machines under a configuration -/

/-- The number of a machine that a setting replaces; the time step is none of them. -/
def Machine.value? {α : Type} (m : Machine α) : Setting → Option α
  | .timeStep => none
  | .width => some m.stock.width
  | .height => some m.stock.height
  | .depth => some m.stock.depth
  | .cell => some m.stock.cell
  | .toolDiameter => some m.tool.diameter

namespace Config

section Any

variable {α : Type} [Scalar α]

theorem value?_override (c : Config α) (m : Machine α) (s : Setting) :
    (c.override m).value? s = (m.value? s).map (c.pick s) := by
  cases s <;> rfl

theorem override_override (c : Config α) (m : Machine α) :
    c.override (c.override m) = c.override m := by
  unfold override
  simp only [pick_pick]

end Any

variable {m : Machine Float}

/-- **A machine without a fault has none under any configuration.** -/
theorem fault?_override (hm : m.fault? = none) (c : Config Float) :
    (c.override m).fault? = none := by
  rw [Machine.fault?_eq_none_iff, StockSize.fault?_eq_none_iff] at hm ⊢
  obtain ⟨haxes, ⟨hcell, hwidth, hheight, hdepth⟩, htool, hfixtures⟩ := hm
  -- axes and fixtures are not touched, and each number is checked on its own
  refine ⟨haxes, ⟨?_, ?_, ?_, ?_⟩, ?_, hfixtures⟩
  · exact pick_keeps (P := fun v => Scalar.usable v = true) hcell fun _ =>
      Setting.usable_of_accepts
  · exact pick_keeps hwidth fun _ => Setting.isExtent_of_accepts
  · exact pick_keeps hheight fun _ => Setting.isExtent_of_accepts
  · exact pick_keeps hdepth fun _ => Setting.isExtent_of_accepts
  · exact pick_keeps (P := fun v => Scalar.usable v = true) htool fun _ =>
      Setting.usable_of_accepts

/-- **A machine stays valid and fit for simulation under any configuration.**  Its overridden form
has no fault; the parts without a setting are its own, each number with a setting is its own or the
override, and of a valid configuration every override is used as it is; a second time the
configuration changes nothing; and a simulation runs, unless the cells of the stock are more than a
word counts, which is then the fault. -/
theorem override_keeps (hm : m.fault? = none) (c : Config Float) :
    (c.override m).fault? = none ∧
    ((c.override m).name = m.name ∧ (c.override m).axes = m.axes ∧
      (c.override m).toolCentre = m.toolCentre ∧ (c.override m).workOffsets = m.workOffsets ∧
      (c.override m).fixtures = m.fixtures) ∧
    (∀ s own, m.value? s = some own → ∃ v, (c.override m).value? s = some v ∧
      (v = own ∨ c.value? s = some v) ∧
      (c.fault? = none → ∀ w, c.value? s = some w → v = w)) ∧
    c.override (c.override m) = c.override m ∧
    ∀ (source : String) (step : Float) (policy : RemovalPolicy),
      let size := (c.override m).stock
      let nx := Stock.cellsAlong size.width size.cell
      let ny := Stock.cellsAlong size.height size.cell
      let nz := Stock.cellsAlong size.depth size.cell
      (nx * ny * nz < UInt64.size →
        ∃ r, Simulation.run source (c.override m) step policy = .ok r) ∧
      (UInt64.size ≤ nx * ny * nz →
        Simulation.run source (c.override m) step policy = .error (.tooLarge nx ny nz)) := by
  have hvalid := fault?_override hm c
  have hstock : (c.override m).stock.fault? = none := (Machine.fault?_eq_none_iff.1 hvalid).2.1
  refine ⟨hvalid, ⟨rfl, rfl, rfl, rfl, rfl⟩, ?values, c.override_override m, ?runs⟩
  case values =>
    intro s own hown
    refine ⟨c.pick s own, by rw [value?_override, hown, Option.map_some], ?_, ?_⟩
    · rcases c.pick_eq_or s own with hkept | ⟨v, hv, -, hused⟩
      · exact .inl hkept
      · exact .inr (hused ▸ hv)
    · intro hc w hw
      exact pick_of_fault?_eq_none hc hw
  case runs =>
    intro source step policy
    constructor
    · intro hcount
      exact ⟨_, Simulation.run_of_ofSize (Stock.ofSize_eq_ok hstock hcount) source step policy⟩
    · intro hcount
      exact Simulation.run_eq_error_iff.2 (Stock.ofSize_eq_tooLarge hstock hcount)

/-- Overrides of each kind: a cell size below the least one, a tool, a width below the least one,
no height, and a depth that is no number. -/
def mixedOverrides : Config Float :=
  { (default : Config Float) with overrides := ⟨some 0.05, some 3, some 0.5, none, some (0 / 0)⟩ }

/-- Overrides that are all valid. -/
def halfCells : Config Float :=
  { (default : Config Float) with overrides := ⟨some 0.5, none, some 20, none, none⟩ }

/-- Under mixed overrides a machine of which nothing is described gets the tool and keeps its own
stock, and a program runs on it.  Under valid ones it gets the cell size that is given. -/
theorem override_keeps_mixedOverrides :
    (Machine.default : Machine Float).fault? = none ∧
    mixedOverrides.fault? = some .width ∧
    (mixedOverrides.override Machine.default).fault? = none ∧
    (mixedOverrides.override Machine.default).tool.diameter = 3 ∧
    (mixedOverrides.override Machine.default).stock = (StockSize.default : StockSize Float) ∧
    (∃ r, Simulation.run "G1 X5" (mixedOverrides.override Machine.default) 0.005 .allMotion =
      .ok r) ∧
    halfCells.fault? = none ∧
    (halfCells.override Machine.default).value? .cell = some 0.5 := by
  have hm : (Machine.default : Machine Float).fault? = none := by decide +kernel
  have hcells : halfCells.fault? = none := by decide +kernel
  obtain ⟨hvalid, -, -, -, hruns⟩ := override_keeps hm mixedOverrides
  obtain ⟨-, -, hvalues, -⟩ := override_keeps hm halfCells
  obtain ⟨v, hused, -, hgiven⟩ := hvalues .cell (StockSize.default : StockSize Float).cell rfl
  obtain rfl : v = 0.5 := hgiven hcells 0.5 rfl
  refine ⟨hm, by decide +kernel, hvalid, by decide +kernel, by decide +kernel, ?_, hcells, hused⟩
  exact (hruns "G1 X5" 0.005 .allMotion).1 (by decide +kernel)

end Config

end Machining
