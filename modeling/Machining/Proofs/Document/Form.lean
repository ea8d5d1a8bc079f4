import Machining.Document.Parts
import Mathlib.Data.List.Forall2
import Mathlib.Data.List.Nodup

/-!
# Forms of documents

A `Form` says which nodes stand for a value.  A record stands in a document with its parts in any
order, each under one of its names or, where it has a default and is equal to it, not at all, and
with unknown parts in between; its form is the list of its parts.  A reader reads a form if it
takes every node that stands for a value to that value, and refuses every node in which some part
is given twice.

* `Form`, `Form.record`, `Form.list` — forms, and how they are put together;
* `FormPart.foundAt_of_shows` — a reader finds each part of a record or sees that it is left out;
* `FormPart.doubled_part?` — a part that is given twice is not found;
* `FormPart.required?_of_foundAt`, `FormPart.defaulted?_of_foundAt` and the like — reading parts;
* `Form.list_isReadBy` — lists are read by reading their items.
-/

set_option autoImplicit false

namespace Machining

variable {β ρ : Type}

/-! ## Forms -/

/-- How values of a type stand in a document: which nodes show a value, and in which a known part is
given twice somewhere. -/
structure Form (β : Type) where
  Shows : β → Node → Prop
  Doubles : Node → Prop

/-- The reader reads the form. -/
structure Form.IsReadBy (F : Form β) (read : Node → Option β) : Prop where
  shows {b : β} {v : Node} : F.Shows b v → read v = some b
  doubles {v : Node} : F.Doubles v → read v = none

/-- A part of a record: the names it may be given under, the nodes that show it, the records that it
may be left out of, and the nodes in which a known part is given twice somewhere. -/
structure FormPart (ρ : Type) where
  names : List String
  Shows : ρ → Node → Prop
  MayLack : ρ → Prop
  Doubles : Node → Prop

namespace FormPart

/-- A part that must be there. -/
def required (names : List String) (get : ρ → β) (F : Form β) : FormPart ρ :=
  ⟨names, fun r => F.Shows (get r), fun _ => False, F.Doubles⟩

/-- A part that may be left out where it has the default value. -/
def defaulted (names : List String) (default : β) (get : ρ → β) (F : Form β) : FormPart ρ :=
  ⟨names, fun r => F.Shows (get r), fun r => default = get r, F.Doubles⟩

/-- The fields are the parts of the record in order. -/
inductive Given (r : ρ) : List (FormPart ρ) → List (String × Node) → Prop
  | nil : Given r [] []
  | given {p : FormPart ρ} {ps : List (FormPart ρ)} {name : String} {v : Node}
      {fields : List (String × Node)} (hname : name ∈ p.names) (hshows : p.Shows r v)
      (hrest : Given r ps fields) : Given r (p :: ps) ((name, v) :: fields)
  | lacking {p : FormPart ρ} {ps : List (FormPart ρ)} {fields : List (String × Node)}
      (hlack : p.MayLack r) (hrest : Given r ps fields) : Given r (p :: ps) fields

/-- The part at a position is given twice, or a node that gives it has a part given twice. -/
inductive DoubledAt (p : FormPart ρ) (i : ℕ) : Node → Prop
  | twice {fields : List (String × Node)} {f g : String × Node} (h : [f, g].Sublist fields)
      (hf : f.1 ∈ p.names) (hg : g.1 ∈ p.names) : DoubledAt p i (.record fields)
  | field {fields : List (String × Node)} {f : String × Node} (h : f ∈ fields)
      (hf : f.1 ∈ p.names) (hv : p.Doubles f.2) : DoubledAt p i (.record fields)
  | item {items : List Node} {v : Node} (h : items[i]? = some v) (hv : p.Doubles v) :
      DoubledAt p i (.list items)

end FormPart

namespace Form

/-- A double. -/
def number : Form Float := ⟨fun x v => v.real? = some x, fun _ => False⟩

/-- A text. -/
def text : Form String := ⟨fun s v => v.text? = some s, fun _ => False⟩

/-- A choice, by its name. -/
def choice (name : β → String) : Form β := ⟨fun b v => v = .text (name b), fun _ => False⟩

/-- A value that may be absent, as `null`. -/
def nullable (F : Form β) : Form (Option β) where
  Shows o v := match o with
    | some b => v ≠ .null ∧ F.Shows b v
    | none => v = .null
  Doubles v := v ≠ .null ∧ F.Doubles v

/-- Values in order. -/
def list (F : Form β) : Form (List β) where
  Shows bs v := ∃ items, v = .list items ∧ List.Forall₂ F.Shows bs items
  Doubles v := ∃ items, v = .list items ∧ ∃ w ∈ items, F.Doubles w

/-- A record: its parts in any order, among fields with other names. -/
def record (parts : List (FormPart ρ)) : Form ρ where
  Shows r v := ∃ known unknown fields, v = .record fields ∧ fields.Perm (known ++ unknown) ∧
    FormPart.Given r parts known ∧ ∀ f ∈ unknown, f.1 ∉ parts.flatMap FormPart.names
  Doubles v := ∃ (i : ℕ) (p : FormPart ρ), parts[i]? = some p ∧ p.DoubledAt i v

end Form

/-! ## Finding parts -/

namespace FormPart

variable {r : ρ} {p : FormPart ρ} {parts : List (FormPart ρ)} {i : ℕ} {v : Node}

/-- The part is found at a position or under one of its names, or may be left out. -/
inductive FoundAt (p : FormPart ρ) (r : ρ) (i : ℕ) (v : Node) : Prop
  | given {w : Node} (h : v.part? i p.names = some (some w)) (hw : p.Shows r w) : FoundAt p r i v
  | lacking (h : v.part? i p.names = some none) (hlack : p.MayLack r) : FoundAt p r i v

theorem Given.name_mem {known : List (String × Node)} (h : Given r parts known) :
    ∀ f ∈ known, f.1 ∈ parts.flatMap names := by
  induction h with
  | nil => exact List.forall_mem_nil _
  | @given p ps name v fields hname _ _ ih =>
    rw [List.flatMap_cons]
    exact List.forall_mem_cons.2 ⟨List.mem_append_left _ hname,
      fun f hf => List.mem_append_right _ (ih f hf)⟩
  | lacking _ _ ih =>
    rw [List.flatMap_cons]
    exact fun f hf => List.mem_append_right _ (ih f hf)

/-- Fields without the names of a part. -/
theorem filter_eq_nil {fields : List (String × Node)} (h : ∀ f ∈ fields, f.1 ∉ p.names) :
    fields.filter (fun f => p.names.contains f.1) = [] := by
  rw [List.filter_eq_nil_iff]
  simpa using h

/-- **Each part is given once or left out.** -/
theorem Given.filter {known : List (String × Node)} (h : Given r parts known)
    (hnames : (parts.flatMap names).Nodup) (hp : p ∈ parts) :
    (∃ f, known.filter (fun f => p.names.contains f.1) = [f] ∧ p.Shows r f.2) ∨
      known.filter (fun f => p.names.contains f.1) = [] ∧ p.MayLack r := by
  induction h with
  | nil => cases hp
  | @given q ps name v fields hname hshows hrest ih =>
    rw [List.flatMap_cons, List.nodup_append'] at hnames
    obtain ⟨-, hps, hdisjoint⟩ := hnames
    rcases List.mem_cons.1 hp with rfl | hp
    · have hother : fields.filter (fun f => p.names.contains f.1) = [] :=
        filter_eq_nil fun f hf hmem => hdisjoint hmem (hrest.name_mem f hf)
      refine .inl ⟨(name, v), ?_, hshows⟩
      rw [List.filter_cons_of_pos (by simpa using hname), hother]
    · have hother : name ∉ p.names := fun hmem =>
        hdisjoint hname (List.mem_flatMap.2 ⟨p, hp, hmem⟩)
      simpa [hother] using ih hps hp
  | @lacking q ps fields hlack hrest ih =>
    rw [List.flatMap_cons, List.nodup_append'] at hnames
    obtain ⟨-, hps, hdisjoint⟩ := hnames
    rcases List.mem_cons.1 hp with rfl | hp
    · exact .inr ⟨filter_eq_nil fun f hf hmem => hdisjoint hmem (hrest.name_mem f hf), hlack⟩
    · exact ih hps hp

/-- **A record's parts are found**, each or not at all, if no name stands for two of them. -/
theorem foundAt_of_shows (hnames : (parts.flatMap names).Nodup)
    (h : (Form.record parts).Shows r v) : ∀ p ∈ parts, ∀ i, p.FoundAt r i v := by
  obtain ⟨known, unknown, fields, rfl, hperm, hgiven, hunknown⟩ := h
  intro p hp i
  have hother : unknown.filter (fun f => p.names.contains f.1) = [] :=
    filter_eq_nil fun f hf hmem => hunknown f hf (List.mem_flatMap.2 ⟨p, hp, hmem⟩)
  have hfilter := hperm.filter fun f => p.names.contains f.1
  rw [List.filter_append, hother, List.append_nil] at hfilter
  rcases hgiven.filter hnames hp with ⟨f, hf, hshows⟩ | ⟨hnil, hlack⟩
  · rw [hf, List.perm_singleton] at hfilter
    exact .given (by rw [Node.part?, hfilter]) hshows
  · rw [hnil, List.perm_nil] at hfilter
    exact .lacking (by rw [Node.part?, hfilter]) hlack

/-- **A part that is given twice is not found**, or what is found has a part given twice. -/
theorem doubled_part? (h : p.DoubledAt i v) : v.part? i p.names = none ∨
    ∃ w, v.part? i p.names = some (some w) ∧ p.Doubles w := by
  cases h with
  | @twice fields f g h hf hg =>
    left
    have hboth : [f, g].Sublist (fields.filter fun f => p.names.contains f.1) := by
      simpa [hf, hg] using h.filter fun f => p.names.contains f.1
    rw [Node.part?]
    split
    · rename_i hnil
      rw [hnil] at hboth
      cases hboth
    · rename_i hone
      rw [hone] at hboth
      exact absurd hboth.length_le (by simp)
    · rfl
  | @field fields f h hf hv =>
    have hmem : f ∈ fields.filter fun f => p.names.contains f.1 := by simp [h, hf]
    rw [Node.part?]
    split
    · rename_i hnil
      rw [hnil] at hmem
      cases hmem
    · rename_i g hone
      rw [hone, List.mem_singleton] at hmem
      exact .inr ⟨g.2, rfl, hmem ▸ hv⟩
    · exact .inl rfl
  | @item items w h hv => exact .inr ⟨w, by rw [Node.part?, h], hv⟩

/-! ## Reading parts -/

section Reading

variable {F : Form β} {read : Node → Option β} {names : List String} {get : ρ → β} {default : β}

theorem required?_of_foundAt (hread : F.IsReadBy read)
    (h : (required names get F).FoundAt r i v) : v.required? i names read = some (get r) := by
  cases h with
  | @given w h hw =>
    have hpart : v.part? i names = some (some w) := h
    rw [Node.required?, hpart]
    exact hread.shows hw
  | lacking _ hlack => exact hlack.elim

theorem defaulted?_of_foundAt (hread : F.IsReadBy read)
    (h : (defaulted names default get F).FoundAt r i v) :
    v.defaulted? i names default read = some (get r) := by
  cases h with
  | @given w h hw =>
    have hpart : v.part? i names = some (some w) := h
    rw [Node.defaulted?, hpart]
    exact hread.shows hw
  | lacking h hlack =>
    have hpart : v.part? i names = some none := h
    rw [Node.defaulted?, hpart]
    exact congrArg some hlack

theorem required?_of_doubledAt (hread : F.IsReadBy read)
    (h : (required names get F).DoubledAt i v) : v.required? i names read = none := by
  rw [Node.required?]
  rcases doubled_part? h with h | ⟨w, h, hw⟩
  · have hpart : v.part? i names = none := h
    rw [hpart]
  · have hpart : v.part? i names = some (some w) := h
    rw [hpart]
    exact hread.doubles hw

theorem defaulted?_of_doubledAt (hread : F.IsReadBy read)
    (h : (defaulted names default get F).DoubledAt i v) :
    v.defaulted? i names default read = none := by
  rw [Node.defaulted?]
  rcases doubled_part? h with h | ⟨w, h, hw⟩
  · have hpart : v.part? i names = none := h
    rw [hpart]
  · have hpart : v.part? i names = some (some w) := h
    rw [hpart]
    exact hread.doubles hw

end Reading

end FormPart

/-! ## Reading forms -/

namespace Form

variable {F : Form β} {read : Node → Option β} {parts : List (FormPart ρ)} {r : ρ} {v : Node}

theorem number_isReadBy : number.IsReadBy Node.real? := ⟨id, False.elim⟩

theorem text_isReadBy : text.IsReadBy Node.text? := ⟨id, False.elim⟩

theorem choice_isReadBy {k : Convention} {all : List β} {name : β → String}
    (h : ∀ b, Node.choice? k all name (.text (name b)) = some b) :
    (choice name).IsReadBy (Node.choice? k all name) where
  shows := by
    rintro b _ rfl
    exact h b
  doubles := False.elim

theorem nullable?_of_ne_null (hv : v ≠ .null) : Node.nullable? read v = (read v).map some := by
  cases v <;> first | rfl | exact absurd rfl hv

theorem nullable_isReadBy (hread : F.IsReadBy read) :
    F.nullable.IsReadBy (Node.nullable? read) where
  shows {o v} h := by
    cases o with
    | none =>
      cases h
      rfl
    | some b => rw [nullable?_of_ne_null h.1, hread.shows h.2, Option.map_some]
  doubles h := by rw [nullable?_of_ne_null h.1, hread.doubles h.2, Option.map_none]

theorem mapM_eq_some {γ δ : Type} {f : γ → Option δ} {cs : List γ} {ds : List δ}
    (h : List.Forall₂ (fun d c => f c = some d) ds cs) : cs.mapM f = some ds := by
  induction h with
  | nil => rfl
  | cons h _ ih => simp [List.mapM_cons, h, ih]

theorem mapM_eq_none {γ δ : Type} {f : γ → Option δ} {cs : List γ} {c : γ} (hc : c ∈ cs)
    (h : f c = none) : cs.mapM f = none := by
  induction cs with
  | nil => cases hc
  | cons d ds ih =>
    rcases List.mem_cons.1 hc with rfl | hc
    · simp [List.mapM_cons, h]
    · simp [List.mapM_cons, ih hc]

/-- **Lists are read** by reading their items. -/
theorem list_isReadBy (hread : F.IsReadBy read) : F.list.IsReadBy (Node.listOf? read) where
  shows := by
    rintro bs _ ⟨items, rfl, h⟩
    exact mapM_eq_some (h.imp fun _ _ => hread.shows)
  doubles := by
    rintro _ ⟨items, rfl, w, hw, h⟩
    exact mapM_eq_none hw (hread.doubles h)

/-- All parts in order are a record. -/
theorem shows_of_given {fields : List (String × Node)} (h : FormPart.Given r parts fields) :
    (record parts).Shows r (.record fields) :=
  ⟨fields, [], fields, rfl, by rw [List.append_nil], h, List.forall_mem_nil _⟩

theorem isStructure_of_shows (h : (record parts).Shows r v) (k : Convention) (n : ℕ) :
    v.isStructure k n = true := by
  obtain ⟨_, _, _, rfl, -⟩ := h
  rfl

/-- The parts of a list, the first one and the others. -/
theorem exists_getElem?_cons {γ : Type} {c : γ} {cs : List γ} {P : ℕ → γ → Prop} :
    (∃ i d, (c :: cs)[i]? = some d ∧ P i d) ↔ P 0 c ∨ ∃ i d, cs[i]? = some d ∧ P (i + 1) d := by
  constructor
  · rintro ⟨_ | i, d, hd, h⟩
    · cases hd
      exact .inl h
    · exact .inr ⟨i, d, hd, h⟩
  · rintro (h | ⟨i, d, hd, h⟩)
    · exact ⟨0, c, rfl, h⟩
    · exact ⟨i + 1, d, hd, h⟩

/-- A part of a record that is given twice is one of its parts. -/
theorem doubles_record_iff {p : FormPart ρ} : (record (p :: parts)).Doubles v ↔
    p.DoubledAt 0 v ∨ ∃ (i : ℕ) (q : FormPart ρ), parts[i]? = some q ∧ q.DoubledAt (i + 1) v :=
  exists_getElem?_cons

end Form

end Machining
