import Machining.Proofs.Document.Form
import Machining.Proofs.Document.Legible
import Machining.Proofs.Settings.Override
import Machining.Settings.Document

/-!
# Configurations in documents

The form of a configuration: three sections that may be left out, each with parts that may be left
out.  An absent override or path stands as `null` or not at all.  A configuration is written in
this form both as a record, with `null` in place of what is absent, and as tables without it; and
of any document that is read, whatever is left out keeps its default.

* `Config.form_isReadBy` — the form is read;
* `Config.form_shows_toNode`, `Config.form_shows_tables` — both ways of writing have the form;
* `Config.keyAt?_of_leftOut` — what a document leaves out keeps its default.
-/

set_option autoImplicit false

namespace Machining

open Form FormPart

/-! ## Forms -/

namespace Config

/-- The first section in a document. -/
def simulationForm : Form (Float × RemovalPolicy × MeshKind) :=
  record [defaulted ["time_step"] Config.default.timeStep (fun s => s.1) number,
    defaulted ["removal_policy"] .allMotion (fun s => s.2.1) (choice RemovalPolicy.name),
    defaulted ["mesh_export"] .topFaces (fun s => s.2.2) (choice MeshKind.name)]

/-- The second section in a document. -/
def overridesForm : Form (Overrides Float) :=
  record [defaulted ["voxel_size"] none Overrides.cell number.nullable,
    defaulted ["tool_diameter"] none Overrides.toolDiameter number.nullable,
    defaulted ["width"] none Overrides.width number.nullable,
    defaulted ["height"] none Overrides.height number.nullable,
    defaulted ["depth"] none Overrides.depth number.nullable]

/-- The third section in a document. -/
def outputForm : Form (Option String × Option String) :=
  record [defaulted ["collision_report"] none (fun s => s.1) text.nullable,
    defaulted ["stock_mesh"] none (fun s => s.2) text.nullable]

/-- A configuration in a document. -/
def form : Form (Config Float) :=
  let d : Config Float := .default
  record [defaulted ["simulation"] (d.timeStep, d.removalPolicy, d.meshKind)
      (fun c => (c.timeStep, c.removalPolicy, c.meshKind)) simulationForm,
    defaulted ["overrides"] d.overrides Config.overrides overridesForm,
    defaulted ["output"] (d.reportPath, d.meshPath) (fun c => (c.reportPath, c.meshPath))
      outputForm]

/-! ## Readers -/

section Readers

variable (k : Convention)

theorem policy_isReadBy : (choice RemovalPolicy.name).IsReadBy (RemovalPolicy.ofNode? k) :=
  choice_isReadBy fun p => by cases p <;> rfl

theorem meshKind_isReadBy : (choice MeshKind.name).IsReadBy (MeshKind.ofNode? k) :=
  choice_isReadBy fun m => by cases m <;> rfl

theorem simulationForm_isReadBy : simulationForm.IsReadBy (simulationOfNode? k) where
  shows h := by
    have hfound := foundAt_of_shows (by decide) h
    simp only [List.forall_mem_cons] at hfound
    obtain ⟨hstep, hpolicy, hkind, -⟩ := hfound
    simp [simulationOfNode?, isStructure_of_shows h,
      defaulted?_of_foundAt number_isReadBy (hstep _),
      defaulted?_of_foundAt (policy_isReadBy k) (hpolicy _),
      defaulted?_of_foundAt (meshKind_isReadBy k) (hkind _)]
  doubles h := by
    simp only [simulationForm, doubles_record_iff, exists_getElem?_cons] at h
    rcases h with h | h | h | ⟨_, _, h, _⟩
    · simp [simulationOfNode?, defaulted?_of_doubledAt number_isReadBy h]
    · simp [simulationOfNode?, defaulted?_of_doubledAt (policy_isReadBy k) h]
    · simp [simulationOfNode?, defaulted?_of_doubledAt (meshKind_isReadBy k) h]
    · cases h

theorem overridesForm_isReadBy : overridesForm.IsReadBy (overridesOfNode? k) where
  shows h := by
    have hread := nullable_isReadBy number_isReadBy
    have hfound := foundAt_of_shows (by decide) h
    simp only [List.forall_mem_cons] at hfound
    obtain ⟨hcell, htool, hwidth, hheight, hdepth, -⟩ := hfound
    simp [overridesOfNode?, isStructure_of_shows h, defaulted?_of_foundAt hread (hcell _),
      defaulted?_of_foundAt hread (htool _), defaulted?_of_foundAt hread (hwidth _),
      defaulted?_of_foundAt hread (hheight _), defaulted?_of_foundAt hread (hdepth _)]
  doubles h := by
    have hread := nullable_isReadBy number_isReadBy
    simp only [overridesForm, doubles_record_iff, exists_getElem?_cons] at h
    rcases h with h | h | h | h | h | ⟨_, _, h, _⟩
    · simp [overridesOfNode?, defaulted?_of_doubledAt hread h]
    · simp [overridesOfNode?, defaulted?_of_doubledAt hread h]
    · simp [overridesOfNode?, defaulted?_of_doubledAt hread h]
    · simp [overridesOfNode?, defaulted?_of_doubledAt hread h]
    · simp [overridesOfNode?, defaulted?_of_doubledAt hread h]
    · cases h

theorem outputForm_isReadBy : outputForm.IsReadBy (outputOfNode? k) where
  shows h := by
    have hread := nullable_isReadBy text_isReadBy
    have hfound := foundAt_of_shows (by decide) h
    simp only [List.forall_mem_cons] at hfound
    obtain ⟨hreport, hmesh, -⟩ := hfound
    simp [outputOfNode?, isStructure_of_shows h, defaulted?_of_foundAt hread (hreport _),
      defaulted?_of_foundAt hread (hmesh _)]
  doubles h := by
    have hread := nullable_isReadBy text_isReadBy
    simp only [outputForm, doubles_record_iff, exists_getElem?_cons] at h
    rcases h with h | h | ⟨_, _, h, _⟩
    · simp [outputOfNode?, defaulted?_of_doubledAt hread h]
    · simp [outputOfNode?, defaulted?_of_doubledAt hread h]
    · cases h

/-- **Configurations are read in every spelling**, and none that gives a part twice. -/
theorem form_isReadBy : form.IsReadBy (ofNode? k) where
  shows h := by
    have hfound := foundAt_of_shows (by decide) h
    simp only [List.forall_mem_cons] at hfound
    obtain ⟨hsimulation, hoverrides, houtput, -⟩ := hfound
    simp [ofNode?, isStructure_of_shows h,
      defaulted?_of_foundAt (simulationForm_isReadBy k) (hsimulation _),
      defaulted?_of_foundAt (overridesForm_isReadBy k) (hoverrides _),
      defaulted?_of_foundAt (outputForm_isReadBy k) (houtput _)]
  doubles h := by
    simp only [form, doubles_record_iff, exists_getElem?_cons] at h
    rcases h with h | h | h | ⟨_, _, h, _⟩
    · simp [ofNode?, defaulted?_of_doubledAt (simulationForm_isReadBy k) h]
    · simp [ofNode?, defaulted?_of_doubledAt (overridesForm_isReadBy k) h]
    · simp [ofNode?, defaulted?_of_doubledAt (outputForm_isReadBy k) h]
    · cases h

end Readers

/-! ## Writing -/

section Writing

variable {c : Config Float}

theorem isFinite_of_fault?_eq_none (h : c.fault? = none) {s : Setting} {x : Float}
    (hx : c.value? s = some x) : x.isFinite = true :=
  (Setting.pos_of_accepts (accepts_of_fault?_eq_none h hx)).1

/-- What is left of a double that may be absent. -/
theorem shows_ofOption {o : Option Float} (h : ∀ x, o = some x → x.isFinite = true) :
    number.nullable.Shows o (Node.ofOption .real o).legible := by
  cases o with
  | none => rfl
  | some x =>
    have hx := h x rfl
    refine ⟨?_, (Node.real?_legible x x).2 ⟨hx, rfl⟩⟩
    rw [Node.ofOption, Node.legible_real, if_pos hx]
    exact Node.noConfusion

theorem shows_ofText (o : Option String) :
    text.nullable.Shows o (Node.ofOption .text o).legible := by
  cases o with
  | none => rfl
  | some s => exact ⟨Node.noConfusion, rfl⟩

/-- **What is left of a valid configuration in a text has its form.** -/
theorem form_shows_toNode (h : c.fault? = none) : form.Shows c c.toNode.legible := by
  have hfinite {s : Setting} : ∀ x, c.value? s = some x → x.isFinite = true :=
    fun x => isFinite_of_fault?_eq_none h
  have hsimulation : simulationForm.Shows (c.timeStep, c.removalPolicy, c.meshKind)
      (Node.record c.simulationFields).legible := by
    rw [simulationFields, Node.legible_record]
    have hstep : number.Shows c.timeStep (Node.real c.timeStep).legible :=
      (Node.real?_legible _ _).2 ⟨@hfinite .timeStep c.timeStep rfl, rfl⟩
    refine shows_of_given (.given ?_ hstep (.given ?_ rfl (.given ?_ rfl .nil)))
    all_goals exact List.mem_cons_self
  have hoverrides : overridesForm.Shows c.overrides (Node.record c.overrideFields).legible := by
    rw [overrideFields, Node.legible_record]
    refine shows_of_given (.given ?_ (shows_ofOption (@hfinite .cell))
      (.given ?_ (shows_ofOption (@hfinite .toolDiameter))
      (.given ?_ (shows_ofOption (@hfinite .width)) (.given ?_ (shows_ofOption (@hfinite .height))
      (.given ?_ (shows_ofOption (@hfinite .depth)) .nil)))))
    all_goals exact List.mem_cons_self
  have houtput : outputForm.Shows (c.reportPath, c.meshPath)
      (Node.record c.outputFields).legible := by
    rw [outputFields, Node.legible_record]
    refine shows_of_given (.given ?_ (shows_ofText _) (.given ?_ (shows_ofText _) .nil))
    all_goals exact List.mem_cons_self
  rw [toNode, sections, Node.legible_record]
  refine shows_of_given (.given ?_ hsimulation (.given ?_ hoverrides (.given ?_ houtput .nil)))
  all_goals exact List.mem_cons_self

/-- A part that has no value is left out. -/
theorem given_present {ρ : Type} {r : ρ} {p : FormPart ρ} {ps : List (FormPart ρ)} {name : String}
    {v : Node} {fields : List (String × Node)} (hname : name ∈ p.names)
    (hlack : v = .null → p.MayLack r) (hshows : v ≠ .null → p.Shows r v)
    (hrest : Given r ps (present fields)) : Given r (p :: ps) (present ((name, v) :: fields)) := by
  by_cases hv : v = .null
  · subst hv
    exact .lacking (hlack rfl) hrest
  · have hkeep : present ((name, v) :: fields) = (name, v) :: present fields := by
      cases v <;> first | rfl | exact absurd rfl hv
    rw [hkeep]
    exact .given hname (hshows hv) hrest

/-- A value that may be absent, in a table. -/
theorem given_present_ofOption {ρ β : Type} {r : ρ} (get : ρ → Option β) {F : Form β}
    {toNode : β → Node} (hF : ∀ b, F.Shows b (toNode b)) (hnull : ∀ b, toNode b ≠ .null)
    {ps : List (FormPart ρ)} {name : String} {fields : List (String × Node)}
    (hrest : Given r ps (present fields)) :
    Given r (defaulted [name] none get F.nullable :: ps)
      (present ((name, .ofOption toNode (get r)) :: fields)) := by
  refine given_present List.mem_cons_self (fun hv => ?_) (fun hv => ?_) hrest
  · cases hget : get r with
    | none => exact hget.symm
    | some b =>
      rw [hget] at hv
      exact absurd hv (hnull b)
  · change F.nullable.Shows (get r) (.ofOption toNode (get r))
    cases hget : get r with
    | none =>
      rw [hget] at hv
      exact absurd rfl hv
    | some b => exact ⟨hnull b, hF b⟩

/-- **The tables of a configuration have its form.** -/
theorem form_shows_tables (c : Config Float) :
    form.Shows c (.record (c.tables.map fun t => (t.1, .record t.2))) := by
  have hreal (x : Float) : Node.real x ≠ .null := Node.noConfusion
  have htext (s : String) : Node.text s ≠ .null := Node.noConfusion
  have hsimulation : simulationForm.Shows (c.timeStep, c.removalPolicy, c.meshKind)
      (.record (present c.simulationFields)) := by
    refine shows_of_given (.given ?_ rfl (.given ?_ rfl (.given ?_ rfl .nil)))
    all_goals exact List.mem_cons_self
  have hoverrides : overridesForm.Shows c.overrides (.record (present c.overrideFields)) := by
    have hnumber (x : Float) : number.Shows x (.real x) := rfl
    exact shows_of_given (given_present_ofOption Overrides.cell hnumber hreal
      (given_present_ofOption Overrides.toolDiameter hnumber hreal
      (given_present_ofOption Overrides.width hnumber hreal
      (given_present_ofOption Overrides.height hnumber hreal
      (given_present_ofOption Overrides.depth hnumber hreal .nil)))))
  have houtput : outputForm.Shows (c.reportPath, c.meshPath)
      (.record (present c.outputFields)) := by
    have hpath (s : String) : text.Shows s (.text s) := rfl
    exact shows_of_given
      (given_present_ofOption (fun s : Option String × Option String => s.1) hpath htext
      (given_present_ofOption (fun s : Option String × Option String => s.2) hpath htext .nil))
  refine shows_of_given (.given ?_ hsimulation (.given ?_ hoverrides (.given ?_ houtput .nil)))
  all_goals exact List.mem_cons_self

end Writing

/-! ## What is left out -/

section LeftOut

variable {k : Convention} {v w : Node} {c : Config Float} {i j : ℕ} {name key : String} {u : Node}

/-- Nothing stands in the document for a key of a section: not the section, or not the key in
it. -/
inductive LeftOut (v : Node) (i : ℕ) (name : String) (j : ℕ) (key : String) : Prop
  | section (h : v.part? i [name] = some none)
  | key {w : Node} (h : v.part? i [name] = some (some w)) (hw : w.part? j [key] = some none)

/-- A key of a section, with the name of the section and the value. -/
def keyAt? (c : Config Float) (i j : ℕ) : Option (String × String × Node) :=
  c.sections[i]?.bind fun s => s.2[j]?.map fun f => (s.1, f.1, f.2)

/-- Where a part is left out, what is read is its default. -/
theorem eq_of_defaulted? {β : Type} {names : List String} {d b : β} {read : Node → Option β}
    (h : v.defaulted? i names d read = some b) (hout : v.part? i names = some none) : b = d := by
  rw [Node.defaulted?, hout] at h
  exact (Option.some.inj h).symm

/-- Where a part is there, it is what is read. -/
theorem read_of_defaulted? {β : Type} {names : List String} {d b : β} {read : Node → Option β}
    (h : v.defaulted? i names d read = some b) (hpart : v.part? i names = some (some w)) :
    read w = some b := by
  rwa [Node.defaulted?, hpart] at h

theorem simulationFields_of_leftOut
    (h : simulationOfNode? k w = some (c.timeStep, c.removalPolicy, c.meshKind))
    (hout : w.part? j [key] = some none) (hfield : c.simulationFields[j]? = some (key, u)) :
    Config.default.simulationFields[j]? = some (key, u) := by
  simp only [simulationOfNode?, Option.bind_eq_bind, Option.bind_eq_some_iff, Option.some.injEq,
    Prod.mk.injEq] at h
  obtain ⟨-, -, step, hstep, policy, hpolicy, kind, hkind, rfl, rfl, rfl⟩ := h
  rcases j with _ | _ | _ | j
  · cases hfield
    rw [eq_of_defaulted? hstep hout]
    rfl
  · cases hfield
    rw [eq_of_defaulted? hpolicy hout]
    rfl
  · cases hfield
    rw [eq_of_defaulted? hkind hout]
    rfl
  · cases hfield

theorem overrideFields_of_leftOut (h : overridesOfNode? k w = some c.overrides)
    (hout : w.part? j [key] = some none) (hfield : c.overrideFields[j]? = some (key, u)) :
    Config.default.overrideFields[j]? = some (key, u) := by
  simp only [overridesOfNode?, Option.bind_eq_bind, Option.bind_eq_some_iff,
    Option.some.injEq] at h
  obtain ⟨-, -, cell, hcell, tool, htool, width, hwidth, height, hheight, depth, hdepth, heq⟩ := h
  rw [overrideFields, ← heq] at hfield
  rcases j with _ | _ | _ | _ | _ | j
  · cases hfield
    rw [eq_of_defaulted? hcell hout]
    rfl
  · cases hfield
    rw [eq_of_defaulted? htool hout]
    rfl
  · cases hfield
    rw [eq_of_defaulted? hwidth hout]
    rfl
  · cases hfield
    rw [eq_of_defaulted? hheight hout]
    rfl
  · cases hfield
    rw [eq_of_defaulted? hdepth hout]
    rfl
  · cases hfield

theorem outputFields_of_leftOut (h : outputOfNode? k w = some (c.reportPath, c.meshPath))
    (hout : w.part? j [key] = some none) (hfield : c.outputFields[j]? = some (key, u)) :
    Config.default.outputFields[j]? = some (key, u) := by
  simp only [outputOfNode?, Option.bind_eq_bind, Option.bind_eq_some_iff, Option.some.injEq,
    Prod.mk.injEq] at h
  obtain ⟨-, -, report, hreport, mesh, hmesh, rfl, rfl⟩ := h
  rcases j with _ | _ | j
  · cases hfield
    rw [eq_of_defaulted? hreport hout]
    rfl
  · cases hfield
    rw [eq_of_defaulted? hmesh hout]
    rfl
  · cases hfield

theorem keyAt?_eq_some : c.keyAt? i j = some (name, key, u) ↔
    ∃ fields, c.sections[i]? = some (name, fields) ∧ fields[j]? = some (key, u) := by
  simp [keyAt?, Option.bind_eq_some_iff]

/-- **Whatever a document leaves out keeps its default.** -/
theorem keyAt?_of_leftOut (h : ofNode? k v = some c) (hentry : c.keyAt? i j = some (name, key, u))
    (hout : LeftOut v i name j key) : Config.default.keyAt? i j = some (name, key, u) := by
  simp only [ofNode?, Option.bind_eq_bind, Option.bind_eq_some_iff, Option.some.injEq] at h
  obtain ⟨-, -, ⟨step, policy, kind⟩, hsimulation, overrides, hoverrides, ⟨report, mesh⟩, houtput,
    rfl⟩ := h
  obtain ⟨fields, hsection, hfield⟩ := keyAt?_eq_some.1 hentry
  rw [keyAt?_eq_some]
  rcases i with _ | _ | _ | i
  · cases hsection
    refine ⟨_, rfl, ?_⟩
    rcases hout with hout | ⟨hpart, hw⟩
    · cases eq_of_defaulted? hsimulation hout
      exact hfield
    · exact simulationFields_of_leftOut (read_of_defaulted? hsimulation hpart) hw hfield
  · cases hsection
    refine ⟨_, rfl, ?_⟩
    rcases hout with hout | ⟨hpart, hw⟩
    · cases eq_of_defaulted? hoverrides hout
      exact hfield
    · exact overrideFields_of_leftOut (read_of_defaulted? hoverrides hpart) hw hfield
  · cases hsection
    refine ⟨_, rfl, ?_⟩
    rcases hout with hout | ⟨hpart, hw⟩
    · cases eq_of_defaulted? houtput hout
      exact hfield
    · exact outputFields_of_leftOut (read_of_defaulted? houtput hpart) hw hfield
  · cases hsection

end LeftOut

end Config

end Machining
