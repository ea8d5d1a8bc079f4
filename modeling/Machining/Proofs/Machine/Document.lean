import Machining.Machine.Document
import Machining.Proofs.Document.Form
import Machining.Proofs.Document.Legible

/-!
# Machine descriptors in every spelling

The form of a descriptor and of each record within it: which names a part may be given under,
whether it may be left out, and what it is then.  The readers of descriptors read these forms, so
that a descriptor means the same in every spelling, and a text that gives a known part twice is
refused.

* `Machine.form` and its parts — the forms;
* `Machine.form_isReadBy` and its parts — the readers read them;
* `Machine.form_shows_toNode` — a descriptor is written in its form;
* `Machine.ofJson?_spelling` — texts.
-/

set_option autoImplicit false

namespace Machining

open Form FormPart

/-! ## Forms -/

/-- A point in a document. -/
def Point.form : Form (Point Float) :=
  record [required ["x"] Point.x number, required ["y"] Point.y number,
    required ["z"] Point.z number]

/-- A box in a document. -/
def Box.form : Form (Box Float) :=
  record [required ["min"] Box.min Point.form, required ["max"] Box.max Point.form]

/-- The limits of an axis in a document, each with its own default. -/
def AxisLimits.form : Form (AxisLimits Float) :=
  record [defaulted ["min"] AxisLimits.default.min AxisLimits.min number,
    defaulted ["max"] AxisLimits.default.max AxisLimits.max number,
    defaulted ["max_velocity", "maxVelocity"] AxisLimits.default.maxVelocity
      AxisLimits.maxVelocity number,
    defaulted ["max_accel", "maxAccel"] AxisLimits.default.maxAcceleration
      AxisLimits.maxAcceleration number]

/-- The axes in a document. -/
def Axes.form : Form (Axes Float) :=
  record [defaulted ["X", "x"] .default Axes.x AxisLimits.form,
    defaulted ["Y", "y"] .default Axes.y AxisLimits.form,
    defaulted ["Z", "z"] .default Axes.z AxisLimits.form]

/-- A stock size in a document. -/
def StockSize.form : Form (StockSize Float) :=
  record [required ["width"] StockSize.width number, required ["height"] StockSize.height number,
    required ["depth"] StockSize.depth number,
    required ["voxel_size", "voxelSize"] StockSize.cell number]

/-- A tool in a document. -/
def Tool.form : Form (Tool Float) := record [required ["diameter"] Tool.diameter number]

/-- A fixture in a document. -/
def Fixture.form : Form (Fixture Float) :=
  record [required ["name"] Fixture.name text, required ["aabb"] Fixture.box Box.form]

/-- Work offsets in a document: every name stands for an offset, and the order is free. -/
def OffsetTable.form : Form (OffsetTable Float) where
  Shows t v := ∃ entries fields, v = .record fields ∧ entries.Perm t.entries ∧
    List.Forall₂ (fun e f => e.1 = f.1 ∧ Point.form.Shows e.2 f.2) entries fields
  Doubles v := ∃ fields, v = .record fields ∧ ∃ f ∈ fields, Point.form.Doubles f.2

/-- A machine in a document. -/
def Machine.form : Form (Machine Float) :=
  record [defaulted ["name"] "" Machine.name text,
    defaulted ["axes"] .default Machine.axes Axes.form,
    defaulted ["tcp"] .origin Machine.toolCentre Point.form,
    defaulted ["stock"] .default Machine.stock StockSize.form,
    defaulted ["tool"] .default Machine.tool Tool.form,
    defaulted ["work_offsets", "workOffsets"] Machine.defaultWorkOffsets Machine.workOffsets
      OffsetTable.form,
    defaulted ["fixtures"] [] Machine.fixtures Fixture.form.list]

/-! ## Work offsets in any order -/

namespace OffsetTable

variable {α : Type}

@[ext] theorem ext : ∀ {s t : OffsetTable α}, s.entries = t.entries → s = t
  | ⟨_, _⟩, ⟨_, _⟩, rfl => rfl

theorem perm_insertEntry {name : String} (p : Point α) {es : List (String × Point α)}
    (h : ∀ e ∈ es, e.1 ≠ name) : (insertEntry name p es).Perm ((name, p) :: es) := by
  induction es with
  | nil => exact .refl _
  | cons e es ih =>
    obtain ⟨he, hes⟩ := List.forall_mem_cons.1 h
    rw [insertEntry]
    split
    · exact .refl _
    · rename_i hnlt
      split
      · exact ((ih hes).cons e).trans (.swap _ _ _)
      · rename_i hngt
        exact absurd (String.le_antisymm (String.not_lt.1 hnlt) (String.not_lt.1 hngt)) he

/-- Entries with names of their own are all kept. -/
theorem perm_foldl_insert {es : List (String × Point α)} :
    ∀ {t : OffsetTable α}, (es.Pairwise fun a b => a.1 ≠ b.1) →
      (∀ e ∈ es, ∀ f ∈ t.entries, f.1 ≠ e.1) →
      (es.foldl (fun t e => t.insert e.1 e.2) t).entries.Perm (es ++ t.entries) := by
  induction es with
  | nil => exact fun _ _ => .refl _
  | cons e es ih =>
    intro t hpairwise hnew
    obtain ⟨he, hes⟩ := List.pairwise_cons.1 hpairwise
    obtain ⟨hnew, hrest⟩ := List.forall_mem_cons.1 hnew
    have hinsert := perm_insertEntry e.2 hnew
    have hkeep : ∀ d ∈ es, ∀ f ∈ (t.insert e.1 e.2).entries, f.1 ≠ d.1 := by
      intro d hd f hf
      rcases List.mem_cons.1 (hinsert.mem_iff.1 hf) with rfl | hf
      · exact he d hd
      · exact hrest d hd f hf
    refine (ih hes hkeep).trans ((hinsert.append_left es).trans ?_)
    exact List.perm_middle

/-- **The entries of a table make the table in any order.** -/
theorem ofList_of_perm {t : OffsetTable α} {es : List (String × Point α)}
    (h : es.Perm t.entries) : ofList es = t := by
  have hdistinct : es.Pairwise fun a b => a.1 ≠ b.1 := by
    refine (h.pairwise_iff fun hab => hab.symm).2 (t.ascending.imp fun hab heq => ?_)
    exact absurd hab (heq ▸ String.lt_irrefl _)
  have hperm := perm_foldl_insert (t := empty) hdistinct fun _ _ f hf => nomatch hf
  rw [empty, List.append_nil] at hperm
  have hentries : (ofList es).entries = t.entries := by
    refine List.Perm.eq_of_pairwise ?_ (ofList es).ascending t.ascending (hperm.trans h)
    exact fun a b _ _ hab hba => absurd (String.lt_trans hab hba) (String.lt_irrefl _)
  exact ext hentries

end OffsetTable

/-! ## Readers -/

section Readers

variable (k : Convention)

theorem Point.form_isReadBy : form.IsReadBy (ofNode? k) where
  shows h := by
    have hfound := foundAt_of_shows (by decide) h
    simp only [List.forall_mem_cons] at hfound
    obtain ⟨hx, hy, hz, -⟩ := hfound
    simp [ofNode?, isStructure_of_shows h, required?_of_foundAt number_isReadBy (hx _),
      required?_of_foundAt number_isReadBy (hy _), required?_of_foundAt number_isReadBy (hz _)]
  doubles h := by
    simp only [form, doubles_record_iff, exists_getElem?_cons] at h
    rcases h with h | h | h | ⟨_, _, h, _⟩
    · simp [ofNode?, required?_of_doubledAt number_isReadBy h]
    · simp [ofNode?, required?_of_doubledAt number_isReadBy h]
    · simp [ofNode?, required?_of_doubledAt number_isReadBy h]
    · cases h

theorem Box.form_isReadBy : form.IsReadBy (ofNode? k) where
  shows h := by
    have hread := Point.form_isReadBy k
    have hfound := foundAt_of_shows (by decide) h
    simp only [List.forall_mem_cons] at hfound
    obtain ⟨hmin, hmax, -⟩ := hfound
    simp [ofNode?, isStructure_of_shows h, required?_of_foundAt hread (hmin _),
      required?_of_foundAt hread (hmax _)]
  doubles h := by
    have hread := Point.form_isReadBy k
    simp only [form, doubles_record_iff, exists_getElem?_cons] at h
    rcases h with h | h | ⟨_, _, h, _⟩
    · simp [ofNode?, required?_of_doubledAt hread h]
    · simp [ofNode?, required?_of_doubledAt hread h]
    · cases h

theorem AxisLimits.form_isReadBy : form.IsReadBy (ofNode? k) where
  shows h := by
    have hfound := foundAt_of_shows (by decide) h
    simp only [List.forall_mem_cons] at hfound
    obtain ⟨hmin, hmax, hvelocity, hacceleration, -⟩ := hfound
    simp [ofNode?, isStructure_of_shows h,
      defaulted?_of_foundAt number_isReadBy (hmin _),
      defaulted?_of_foundAt number_isReadBy (hmax _),
      defaulted?_of_foundAt number_isReadBy (hvelocity _),
      defaulted?_of_foundAt number_isReadBy (hacceleration _)]
  doubles h := by
    simp only [form, doubles_record_iff, exists_getElem?_cons] at h
    rcases h with h | h | h | h | ⟨_, _, h, _⟩
    · simp [ofNode?, defaulted?_of_doubledAt number_isReadBy h]
    · simp [ofNode?, defaulted?_of_doubledAt number_isReadBy h]
    · simp [ofNode?, defaulted?_of_doubledAt number_isReadBy h]
    · simp [ofNode?, defaulted?_of_doubledAt number_isReadBy h]
    · cases h

theorem Axes.form_isReadBy : form.IsReadBy (ofNode? k) where
  shows h := by
    have hread := AxisLimits.form_isReadBy k
    have hfound := foundAt_of_shows (by decide) h
    simp only [List.forall_mem_cons] at hfound
    obtain ⟨hx, hy, hz, -⟩ := hfound
    simp [ofNode?, isStructure_of_shows h, defaulted?_of_foundAt hread (hx _),
      defaulted?_of_foundAt hread (hy _), defaulted?_of_foundAt hread (hz _)]
  doubles h := by
    have hread := AxisLimits.form_isReadBy k
    simp only [form, doubles_record_iff, exists_getElem?_cons] at h
    rcases h with h | h | h | ⟨_, _, h, _⟩
    · simp [ofNode?, defaulted?_of_doubledAt hread h]
    · simp [ofNode?, defaulted?_of_doubledAt hread h]
    · simp [ofNode?, defaulted?_of_doubledAt hread h]
    · cases h

theorem StockSize.form_isReadBy : form.IsReadBy (ofNode? k) where
  shows h := by
    have hfound := foundAt_of_shows (by decide) h
    simp only [List.forall_mem_cons] at hfound
    obtain ⟨hwidth, hheight, hdepth, hcell, -⟩ := hfound
    simp [ofNode?, isStructure_of_shows h, required?_of_foundAt number_isReadBy (hwidth _),
      required?_of_foundAt number_isReadBy (hheight _),
      required?_of_foundAt number_isReadBy (hdepth _),
      required?_of_foundAt number_isReadBy (hcell _)]
  doubles h := by
    simp only [form, doubles_record_iff, exists_getElem?_cons] at h
    rcases h with h | h | h | h | ⟨_, _, h, _⟩
    · simp [ofNode?, required?_of_doubledAt number_isReadBy h]
    · simp [ofNode?, required?_of_doubledAt number_isReadBy h]
    · simp [ofNode?, required?_of_doubledAt number_isReadBy h]
    · simp [ofNode?, required?_of_doubledAt number_isReadBy h]
    · cases h

theorem Tool.form_isReadBy : form.IsReadBy (ofNode? k) where
  shows h := by
    have hfound := foundAt_of_shows (by decide) h
    have hdiameter := hfound _ List.mem_cons_self 0
    simp [ofNode?, isStructure_of_shows h, required?_of_foundAt number_isReadBy hdiameter]
  doubles h := by
    simp only [form, doubles_record_iff] at h
    rcases h with h | ⟨_, _, h, _⟩
    · simp [ofNode?, required?_of_doubledAt number_isReadBy h]
    · cases h

theorem Fixture.form_isReadBy : form.IsReadBy (ofNode? k) where
  shows h := by
    have hread := Box.form_isReadBy k
    have hfound := foundAt_of_shows (by decide) h
    simp only [List.forall_mem_cons] at hfound
    obtain ⟨hname, hbox, -⟩ := hfound
    simp [ofNode?, isStructure_of_shows h, required?_of_foundAt text_isReadBy (hname _),
      required?_of_foundAt hread (hbox _)]
  doubles h := by
    have hread := Box.form_isReadBy k
    simp only [form, doubles_record_iff, exists_getElem?_cons] at h
    rcases h with h | h | ⟨_, _, h, _⟩
    · simp [ofNode?, required?_of_doubledAt text_isReadBy h]
    · simp [ofNode?, required?_of_doubledAt hread h]
    · cases h

theorem OffsetTable.form_isReadBy : form.IsReadBy (ofNode? k) where
  shows := by
    rintro t _ ⟨entries, fields, rfl, hperm, hfields⟩
    have hread : fields.mapM (fun f => (Point.ofNode? k f.2).map fun p => (f.1, p)) =
        some entries := by
      refine mapM_eq_some (hfields.imp fun e f hef => ?_)
      rw [(Point.form_isReadBy k).shows hef.2, Option.map_some, ← hef.1]
    rw [ofNode?, hread, Option.map_some, ofList_of_perm hperm]
  doubles := by
    rintro _ ⟨fields, rfl, f, hf, h⟩
    have hread : fields.mapM (fun f => (Point.ofNode? k f.2).map fun p => (f.1, p)) = none := by
      refine mapM_eq_none hf ?_
      rw [(Point.form_isReadBy k).doubles h, Option.map_none]
    rw [ofNode?, hread, Option.map_none]

/-- **Machines are read in every spelling**, and none that gives a part twice. -/
theorem Machine.form_isReadBy : form.IsReadBy (ofNode? k) where
  shows h := by
    have hfound := foundAt_of_shows (by decide) h
    simp only [List.forall_mem_cons] at hfound
    obtain ⟨hname, haxes, hcentre, hstock, htool, hoffsets, hfixtures, -⟩ := hfound
    simp [ofNode?, default, isStructure_of_shows h, defaulted?_of_foundAt text_isReadBy (hname _),
      defaulted?_of_foundAt (Axes.form_isReadBy k) (haxes _),
      defaulted?_of_foundAt (Point.form_isReadBy k) (hcentre _),
      defaulted?_of_foundAt (StockSize.form_isReadBy k) (hstock _),
      defaulted?_of_foundAt (Tool.form_isReadBy k) (htool _),
      defaulted?_of_foundAt (OffsetTable.form_isReadBy k) (hoffsets _),
      defaulted?_of_foundAt (list_isReadBy (Fixture.form_isReadBy k)) (hfixtures _)]
  doubles h := by
    simp only [form, doubles_record_iff, exists_getElem?_cons] at h
    rcases h with h | h | h | h | h | h | h | ⟨_, _, h, _⟩
    · simp [ofNode?, default, defaulted?_of_doubledAt text_isReadBy h]
    · simp [ofNode?, default, defaulted?_of_doubledAt (Axes.form_isReadBy k) h]
    · simp [ofNode?, default, defaulted?_of_doubledAt (Point.form_isReadBy k) h]
    · simp [ofNode?, default, defaulted?_of_doubledAt (StockSize.form_isReadBy k) h]
    · simp [ofNode?, default, defaulted?_of_doubledAt (Tool.form_isReadBy k) h]
    · simp [ofNode?, default, defaulted?_of_doubledAt (OffsetTable.form_isReadBy k) h]
    · simp [ofNode?, default,
        defaulted?_of_doubledAt (list_isReadBy (Fixture.form_isReadBy k)) h]
    · cases h

end Readers

/-! ## Writing -/

/-- The numbers of the limits of an axis. -/
def AxisLimits.numbers {α : Type} (l : AxisLimits α) : List α :=
  [l.min, l.max, l.maxVelocity, l.maxAcceleration]

/-- The numbers of the axes. -/
def Axes.numbers {α : Type} (a : Axes α) : List α := a.x.numbers ++ a.y.numbers ++ a.z.numbers

/-- The numbers of a stock size. -/
def StockSize.numbers {α : Type} (s : StockSize α) : List α := [s.width, s.height, s.depth, s.cell]

/-- The numbers of a box. -/
def Box.numbers {α : Type} (b : Box α) : List α := b.min.coordinates ++ b.max.coordinates

/-- The numbers of work offsets. -/
def OffsetTable.numbers {α : Type} (t : OffsetTable α) : List α :=
  t.entries.flatMap fun e => e.2.coordinates

/-- The numbers of a machine. -/
def Machine.numbers {α : Type} (m : Machine α) : List α :=
  m.axes.numbers ++ m.toolCentre.coordinates ++ m.stock.numbers ++ [m.tool.diameter] ++
    m.workOffsets.numbers ++ m.fixtures.flatMap fun f => f.box.numbers

theorem Form.number_shows {x : Float} (h : x.isFinite = true) :
    number.Shows x (Node.real x).legible := (Node.real?_legible x x).2 ⟨h, rfl⟩

section Shows

theorem Point.form_shows {p : Point Float} (h : ∀ x ∈ p.coordinates, x.isFinite = true) :
    form.Shows p p.toNode.legible := by
  simp only [coordinates, List.forall_mem_cons] at h
  obtain ⟨hx, hy, hz, -⟩ := h
  rw [toNode, Node.legible_record]
  refine shows_of_given (.given ?_ (number_shows hx) (.given ?_ (number_shows hy)
    (.given ?_ (number_shows hz) .nil)))
  all_goals exact List.mem_cons_self

theorem Box.form_shows {b : Box Float} (h : ∀ x ∈ b.numbers, x.isFinite = true) :
    form.Shows b b.toNode.legible := by
  rw [numbers, List.forall_mem_append] at h
  rw [toNode, Node.legible_record]
  refine shows_of_given (.given ?_ (Point.form_shows h.1) (.given ?_ (Point.form_shows h.2) .nil))
  all_goals exact List.mem_cons_self

theorem AxisLimits.form_shows {l : AxisLimits Float} (h : ∀ x ∈ l.numbers, x.isFinite = true) :
    form.Shows l l.toNode.legible := by
  simp only [numbers, List.forall_mem_cons] at h
  obtain ⟨hmin, hmax, hvelocity, hacceleration, -⟩ := h
  rw [toNode, Node.legible_record]
  refine shows_of_given (.given ?_ (number_shows hmin) (.given ?_ (number_shows hmax)
    (.given ?_ (number_shows hvelocity) (.given ?_ (number_shows hacceleration) .nil))))
  all_goals exact List.mem_cons_self

theorem Axes.form_shows {a : Axes Float} (h : ∀ x ∈ a.numbers, x.isFinite = true) :
    form.Shows a a.toNode.legible := by
  simp only [numbers, List.forall_mem_append] at h
  obtain ⟨⟨hx, hy⟩, hz⟩ := h
  rw [toNode, Node.legible_record]
  refine shows_of_given (.given ?_ (AxisLimits.form_shows hx)
    (.given ?_ (AxisLimits.form_shows hy) (.given ?_ (AxisLimits.form_shows hz) .nil)))
  all_goals exact List.mem_cons_self

theorem StockSize.form_shows {s : StockSize Float} (h : ∀ x ∈ s.numbers, x.isFinite = true) :
    form.Shows s s.toNode.legible := by
  simp only [numbers, List.forall_mem_cons] at h
  obtain ⟨hwidth, hheight, hdepth, hcell, -⟩ := h
  rw [toNode, Node.legible_record]
  refine shows_of_given (.given ?_ (number_shows hwidth) (.given ?_ (number_shows hheight)
    (.given ?_ (number_shows hdepth) (.given ?_ (number_shows hcell) .nil))))
  all_goals exact List.mem_cons_self

theorem Tool.form_shows {t : Tool Float} (h : t.diameter.isFinite = true) :
    form.Shows t t.toNode.legible := by
  rw [toNode, Node.legible_record]
  exact shows_of_given (.given List.mem_cons_self (number_shows h) .nil)

theorem Fixture.form_shows {f : Fixture Float} (h : ∀ x ∈ f.box.numbers, x.isFinite = true) :
    form.Shows f f.toNode.legible := by
  rw [toNode, Node.legible_record]
  refine shows_of_given (.given ?_ rfl (.given ?_ (Box.form_shows h) .nil))
  all_goals exact List.mem_cons_self

theorem OffsetTable.form_shows {t : OffsetTable Float} (h : ∀ x ∈ t.numbers, x.isFinite = true) :
    form.Shows t t.toNode.legible := by
  rw [numbers, List.forall_mem_flatMap] at h
  rw [toNode, Node.legible_record, List.map_map]
  refine ⟨t.entries, _, rfl, .refl _, ?_⟩
  rw [List.forall₂_map_right_iff, List.forall₂_same]
  exact fun e he => ⟨rfl, Point.form_shows (h e he)⟩

/-- **A machine is written in its form**, if its numbers are finite. -/
theorem Machine.form_shows {m : Machine Float} (h : ∀ x ∈ m.numbers, x.isFinite = true) :
    form.Shows m m.toNode.legible := by
  simp only [numbers, List.forall_mem_append, List.forall_mem_flatMap, List.forall_mem_singleton]
    at h
  obtain ⟨⟨⟨⟨⟨haxes, hcentre⟩, hstock⟩, htool⟩, hoffsets⟩, hfixtures⟩ := h
  have hlist : Fixture.form.list.Shows m.fixtures
      (Node.list (m.fixtures.map Fixture.toNode)).legible := by
    rw [Node.legible_list, List.map_map]
    refine ⟨_, rfl, ?_⟩
    rw [List.forall₂_map_right_iff, List.forall₂_same]
    exact fun f hf => Fixture.form_shows (hfixtures f hf)
  rw [toNode, Node.legible_record]
  refine shows_of_given (.given ?_ rfl (.given ?_ (Axes.form_shows haxes)
    (.given ?_ (Point.form_shows hcentre) (.given ?_ (StockSize.form_shows hstock)
    (.given ?_ (Tool.form_shows htool) (.given ?_ (OffsetTable.form_shows hoffsets)
    (.given ?_ hlist .nil)))))))
  all_goals exact List.mem_cons_self

end Shows

section Writing

open Json (Writable Survives Within Spelled tokens maxDepth)

variable {n : ℕ}

theorem Box.writable_toNode {b : Box Float}
    (h : ∀ x ∈ b.numbers, x.isFinite = true → Survives x) : Writable (n + 2) b.toNode := by
  rw [numbers, List.forall_mem_append] at h
  refine .record ?_
  simp only [List.forall_mem_cons]
  exact ⟨Point.writable_toNode h.1, Point.writable_toNode h.2, List.forall_mem_nil _⟩

theorem AxisLimits.writable_toNode {l : AxisLimits Float}
    (h : ∀ x ∈ l.numbers, x.isFinite = true → Survives x) : Writable (n + 1) l.toNode := by
  simp only [numbers, List.forall_mem_cons] at h
  obtain ⟨hmin, hmax, hvelocity, hacceleration, -⟩ := h
  refine .record ?_
  simp only [List.forall_mem_cons]
  exact ⟨.real hmin, .real hmax, .real hvelocity, .real hacceleration, List.forall_mem_nil _⟩

theorem Axes.writable_toNode {a : Axes Float}
    (h : ∀ x ∈ a.numbers, x.isFinite = true → Survives x) : Writable (n + 2) a.toNode := by
  simp only [numbers, List.forall_mem_append] at h
  obtain ⟨⟨hx, hy⟩, hz⟩ := h
  refine .record ?_
  simp only [List.forall_mem_cons]
  exact ⟨AxisLimits.writable_toNode hx, AxisLimits.writable_toNode hy,
    AxisLimits.writable_toNode hz, List.forall_mem_nil _⟩

theorem StockSize.writable_toNode {s : StockSize Float}
    (h : ∀ x ∈ s.numbers, x.isFinite = true → Survives x) : Writable (n + 1) s.toNode := by
  simp only [numbers, List.forall_mem_cons] at h
  obtain ⟨hwidth, hheight, hdepth, hcell, -⟩ := h
  refine .record ?_
  simp only [List.forall_mem_cons]
  exact ⟨.real hwidth, .real hheight, .real hdepth, .real hcell, List.forall_mem_nil _⟩

theorem Machine.writable_toNode {m : Machine Float}
    (h : ∀ x ∈ m.numbers, x.isFinite = true → Survives x) : Writable (n + 5) m.toNode := by
  simp only [numbers, List.forall_mem_append, List.forall_mem_flatMap, List.forall_mem_singleton]
    at h
  obtain ⟨⟨⟨⟨⟨haxes, hcentre⟩, hstock⟩, htool⟩, hoffsets⟩, hfixtures⟩ := h
  have hdiameter : Writable (n + 4) m.tool.toNode := by
    refine .record ?_
    simp only [List.forall_mem_cons]
    exact ⟨.real htool, List.forall_mem_nil _⟩
  have htable : Writable (n + 4) m.workOffsets.toNode := by
    refine .record (List.forall_mem_map.2 fun e he => Point.writable_toNode ?_)
    exact List.forall_mem_flatMap.1 hoffsets e he
  have hlist : Writable (n + 4) (.list (m.fixtures.map Fixture.toNode)) := by
    refine .list (List.forall_mem_map.2 fun f hf => .record ?_)
    simp only [List.forall_mem_cons]
    exact ⟨.text _, Box.writable_toNode (hfixtures f hf), List.forall_mem_nil _⟩
  refine .record ?_
  simp only [List.forall_mem_cons]
  exact ⟨.text _, Axes.writable_toNode haxes, Point.writable_toNode hcentre,
    StockSize.writable_toNode hstock, hdiameter, htable, hlist, List.forall_mem_nil _⟩

/-- **Descriptors mean the same in every spelling.**  A text that spells a machine in its form is
read as the machine; a text that gives a known part twice, under one name or two, is refused; and
a machine whose numbers are finite is read from its own text, provided that number texts are read
as the doubles they were written for. -/
theorem Machine.ofJson?_spelling :
    (∀ (m : Machine Float) (v : Node) (text : String), form.Shows m v → Within maxDepth v →
      Spelled (tokens v) text.toList → ofJson? text = some m) ∧
    (∀ (v : Node) (text : String), form.Doubles v → Within maxDepth v →
      Spelled (tokens v) text.toList → ofJson? text = none) ∧
    ∀ m : Machine Float, (∀ x ∈ m.numbers, x.isFinite = true ∧ Survives x) →
      ofJson? m.toJson = some m := by
  have hreads := Machine.form_isReadBy Json.convention
  refine ⟨fun m v text hv hdepth htext => ?_, fun v text hv hdepth htext => ?_, fun m hm => ?_⟩
  · rw [ofJson?, Json.read?_of_spelled hdepth htext, Option.bind_some, hreads.shows hv]
  · rw [ofJson?, Json.read?_of_spelled hdepth htext, Option.bind_some, hreads.doubles hv]
  · have hwritten : Json.read? m.toJson = some m.toNode.legible :=
      Json.read?_write (writable_toNode fun x hx _ => (hm x hx).2)
    rw [ofJson?, hwritten, Option.bind_some, hreads.shows (form_shows fun x hx => (hm x hx).1)]

/-- A document with the other spelling of two names, an unknown part and an axis in part. -/
def Machine.terse : Node :=
  .record [("workOffsets", .record []), ("note", .null),
    ("axes", .record [("x", .record [("maxVelocity", .integer 900)])])]

/-- A document with both spellings of one name. -/
def Machine.torn : Node := .record [("workOffsets", .record []), ("work_offsets", .record [])]

/-- A terse document, a torn one, and the text of the default machine. -/
theorem Machine.ofJson?_spelling_terse :
    ofJson? (Json.write terse) = some { default with
      workOffsets := .empty
      axes := { Axes.default with x := { AxisLimits.default with maxVelocity := 900 } } } ∧
    ofJson? (Json.write torn) = none ∧ ofJson? default.toJson = some default := by
  have hvelocity : Writable 124 (.integer 900) := .count (k := 900) (by decide)
  have hterse : Writable maxDepth terse := by
    refine .record ?_
    simp only [List.forall_mem_cons]
    exact ⟨.record (List.forall_mem_nil _), .null,
      .record (List.forall_mem_singleton.2 (.record (List.forall_mem_singleton.2 hvelocity))),
      List.forall_mem_nil _⟩
  have htorn : Writable maxDepth torn := by
    refine .record ?_
    simp only [List.forall_mem_cons]
    exact ⟨.record (List.forall_mem_nil _), .record (List.forall_mem_nil _), List.forall_mem_nil _⟩
  have hterse' : terse.legible = terse := by simp [terse]
  have htorn' : torn.legible = torn := by simp [torn]
  refine ⟨ofJson?_spelling.1 _ terse _ ?_ (hterse' ▸ hterse.within)
      (hterse' ▸ Json.spelled_write hterse),
    ofJson?_spelling.2.1 torn _ ⟨5, _, rfl, .twice (.refl _) (by decide) (by decide)⟩
      (htorn' ▸ htorn.within) (htorn' ▸ Json.spelled_write htorn),
    ofJson?_spelling.2.2 default (by decide +kernel)⟩
  have hlimits : AxisLimits.form.Shows { AxisLimits.default with maxVelocity := 900 }
      (.record [("maxVelocity", .integer 900)]) := by
    refine shows_of_given (.lacking rfl (.lacking rfl (.given (by decide) ?_ (.lacking rfl .nil))))
    exact congrArg some (by decide +kernel)
  have haxes : Axes.form.Shows
      { Axes.default with x := { AxisLimits.default with maxVelocity := 900 } }
      (.record [("x", .record [("maxVelocity", .integer 900)])]) :=
    shows_of_given (.given (by decide) hlimits (.lacking rfl (.lacking rfl .nil)))
  have hoffsets : OffsetTable.form.Shows .empty (.record []) := ⟨[], [], rfl, .refl _, .nil⟩
  refine ⟨[("axes", .record [("x", .record [("maxVelocity", .integer 900)])]),
    ("workOffsets", .record [])], [("note", .null)], _, rfl, ?_, ?_, ?_⟩
  · exact @List.perm_append_comm _ [_, _] [_]
  · exact .lacking rfl (.given (by decide) haxes (.lacking rfl (.lacking rfl (.lacking rfl
      (.given (by decide) hoffsets (.lacking rfl .nil))))))
  · exact List.forall_mem_singleton.2 (by decide)

end Writing

end Machining
