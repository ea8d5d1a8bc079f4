import Machining.Proofs.Files.Tree
import Machining.Proofs.Json.Writing
import Machining.Proofs.Settings.Document
import Machining.Proofs.Toml.Reading
import Machining.Settings.File

/-!
# Configuration files read back

Only valid configurations cross the boundary of a file.  One that is saved is loaded again as it
was, in either notation: absent values are written as `null` in the one and not at all in the
other, and read as absent from both.  One that is invalid, or whose file has another extension, is
not saved and no file changes.  And whatever a file holds, what is loaded from it is valid and has
its default wherever the file leaves it out.

* `Config.read?_toText` — the text of a configuration is read in its form, in either notation;
* `Config.ofText?_toText` — and as the configuration;
* `Config.load_eq_ok_iff` — what can be loaded;
* `Config.saveTo_of_save` — what becomes of a text to be saved;
* `Config.load_saveTo` — files.
-/

set_option autoImplicit false

namespace Machining

open Json (Survives Writable)

/-! ## Notations -/

namespace DocumentFormat

/-- The extension that stands for a notation. -/
def extension : DocumentFormat → String
  | json => "json"
  | toml => "toml"

theorem ofExtension?_eq_some {o : Option String} {f : DocumentFormat} :
    ofExtension? o = some f ↔ o = some f.extension := by
  constructor
  · intro h
    rw [ofExtension?.eq_def] at h
    split at h <;> cases h <;> rfl
  · rintro rfl
    cases f <;> rfl

/-- What a notation lets pass. -/
def convention : DocumentFormat → Convention
  | json => Json.convention
  | toml => Toml.convention

/-- The document that a text holds in a notation. -/
def read? (text : String) : DocumentFormat → Option Node
  | json => Json.read? text
  | toml => Toml.read? text

end DocumentFormat

namespace Config

variable {c : Config Float} {f : DocumentFormat} {path : String}

theorem ofText?_eq_bind (text : String) (f : DocumentFormat) :
    ofText? text f = (f.read? text).bind (ofNode? f.convention) := by
  cases f <;> rfl

theorem formatOf_eq_ok : formatOf path = .ok f ↔ Path.extension? path = some f.extension := by
  rw [← DocumentFormat.ofExtension?_eq_some, formatOf]
  cases DocumentFormat.ofExtension? (Path.extension? path) <;> simp

theorem formatOf_eq_error (h : ∀ f : DocumentFormat, Path.extension? path ≠ some f.extension) :
    formatOf path = .error (.unsupported (Path.extension? path)) := by
  cases hformat : DocumentFormat.ofExtension? (Path.extension? path) with
  | some f => exact absurd (DocumentFormat.ofExtension?_eq_some.1 hformat) (h f)
  | none => rw [formatOf, hformat]

/-! ## Texts -/

/-- The numbers of a configuration survive, so its text is read back. -/
theorem writable_toNode (h : ∀ s x, c.value? s = some x → Survives x) (n : ℕ) :
    Writable (n + 2) c.toNode := by
  have hoption {o : Option Float} (ho : ∀ x, o = some x → Survives x) :
      Writable n (.ofOption .real o) :=
    Node.of_ofOption .null fun x hx => .real fun _ => ho x hx
  have htext (o : Option String) : Writable n (.ofOption .text o) :=
    Node.of_ofOption .null fun s _ => .text s
  refine .record ?_
  simp only [sections, List.map_cons, List.map_nil, List.forall_mem_cons]
  refine ⟨.record ?_, .record ?_, .record ?_, List.forall_mem_nil _⟩
  · simp only [simulationFields, List.forall_mem_cons]
    exact ⟨.real fun _ => h .timeStep _ rfl, .text _, .text _, List.forall_mem_nil _⟩
  · simp only [overrideFields, List.forall_mem_cons]
    exact ⟨hoption (h .cell), hoption (h .toolDiameter), hoption (h .width), hoption (h .height),
      hoption (h .depth), List.forall_mem_nil _⟩
  · simp only [outputFields, List.forall_mem_cons]
    exact ⟨htext _, htext _, List.forall_mem_nil _⟩

theorem mem_present {fields : List (String × Node)} {e : String × Node} (h : e ∈ present fields) :
    e ∈ fields ∧ e.2 ≠ .null := by
  obtain ⟨hmem, hkeep⟩ := List.mem_filter.1 h
  refine ⟨hmem, fun hnull => ?_⟩
  obtain ⟨name, v⟩ := e
  cases hnull
  cases hkeep

/-- Fields with bare names, no two alike, are writable once those without a value are gone. -/
theorem areWritable_present {fields : List (String × Node)} (names : List String)
    (hfields : fields.map Prod.fst = names) (hnames : ∀ s ∈ names, Toml.IsName s)
    (hnodup : names.Nodup) (hscalars : ∀ e ∈ fields, e.2 = .null ∨ Toml.IsScalar e.2) :
    Toml.AreWritable (present fields) where
  names e he := hnames e.1 (hfields ▸ List.mem_map_of_mem (mem_present he).1)
  scalars e he := (hscalars e (mem_present he).1).resolve_left (mem_present he).2
  nodup := (hfields ▸ hnodup).sublist (List.filter_sublist.map _)

/-- The tables of a valid configuration can be written. -/
theorem areTables_tables (h : c.fault? = none) : Toml.AreTables c.tables := by
  have hfinite {s : Setting} : ∀ x, c.value? s = some x → x.isFinite = true :=
    fun x => isFinite_of_fault?_eq_none h
  have hreal {o : Option Float} (ho : ∀ x, o = some x → x.isFinite = true) :
      Node.ofOption .real o = .null ∨ Toml.IsScalar (.ofOption .real o) :=
    Node.of_ofOption (P := fun v => v = .null ∨ Toml.IsScalar v) (.inl rfl)
      fun x hx => .inr (.real (ho x hx))
  have htext (o : Option String) :
      Node.ofOption .text o = .null ∨ Toml.IsScalar (.ofOption .text o) :=
    Node.of_ofOption (P := fun v => v = .null ∨ Toml.IsScalar v) (.inl rfl)
      fun s _ => .inr (.text s)
  have hsimulation : Toml.AreWritable (present c.simulationFields) := by
    refine areWritable_present ["time_step", "removal_policy", "mesh_export"] rfl (by decide)
      (by decide) ?_
    simp only [simulationFields, List.forall_mem_cons]
    exact ⟨.inr (.real (@hfinite .timeStep _ rfl)), .inr (.text _), .inr (.text _),
      List.forall_mem_nil _⟩
  have hoverrides : Toml.AreWritable (present c.overrideFields) := by
    refine areWritable_present ["voxel_size", "tool_diameter", "width", "height", "depth"] rfl
      (by decide) (by decide) ?_
    simp only [overrideFields, List.forall_mem_cons]
    exact ⟨hreal (@hfinite .cell), hreal (@hfinite .toolDiameter), hreal (@hfinite .width),
      hreal (@hfinite .height), hreal (@hfinite .depth), List.forall_mem_nil _⟩
  have houtput : Toml.AreWritable (present c.outputFields) := by
    refine areWritable_present ["collision_report", "stock_mesh"] rfl (by decide) (by decide) ?_
    simp only [outputFields, List.forall_mem_cons]
    exact ⟨htext _, htext _, List.forall_mem_nil _⟩
  have hnames : ∀ s ∈ ["simulation", "overrides", "output"], Toml.IsName s := by decide
  have hnodup : ["simulation", "overrides", "output"].Nodup := by decide
  refine ⟨List.forall_mem_map.1 hnames, ?_, hnodup⟩
  simp only [tables, sections, List.map_cons, List.map_nil, List.forall_mem_cons]
  exact ⟨hsimulation, hoverrides, houtput, List.forall_mem_nil _⟩

/-- **The text of a configuration is read in its form**, in either notation. -/
theorem read?_toText (h : c.fault? = none)
    (hjson : f = .json → ∀ s x, c.value? s = some x → Survives x) :
    ∃ v, f.read? (c.toText f) = some v ∧ form.Shows c v := by
  cases f with
  | json =>
    exact ⟨_, Json.read?_writeIndented (writable_toNode (hjson rfl) _), form_shows_toNode h⟩
  | toml => exact ⟨_, Toml.read?_write (areTables_tables h), form_shows_tables c⟩

theorem ofText?_toText (h : c.fault? = none)
    (hjson : f = .json → ∀ s x, c.value? s = some x → Survives x) :
    ofText? (c.toText f) f = some c := by
  obtain ⟨v, hread, hshows⟩ := read?_toText h hjson
  rw [ofText?_eq_bind, hread]
  exact (form_isReadBy _).shows hshows

/-! ## Files -/

theorem check_of_fault?_eq_none (h : c.fault? = none) : c.check = .ok c := by rw [check, h]

theorem save_eq_ok (h : c.fault? = none) (hext : Path.extension? path = some f.extension) :
    c.save path = .ok (c.toText f) := by
  rw [save, check_of_fault?_eq_none h, formatOf_eq_ok.2 hext]
  rfl

theorem check_eq_ok {d : Config Float} : c.check = .ok d ↔ c = d ∧ d.fault? = none := by
  cases h : c.fault? with
  | some s =>
    simp only [check, h, reduceCtorEq, false_iff, not_and]
    rintro rfl hvalid
    rw [h] at hvalid
    cases hvalid
  | none =>
    simp only [check, h, Except.ok.injEq, iff_self_and]
    rintro rfl
    exact h

theorem load_of_extension? (read? : String → Option String)
    (h : Path.extension? path = some f.extension) : load read? path =
      match read? path with
      | none => .error .unreadable
      | some text =>
        match ofText? text f with
        | none => .error (.malformed f)
        | some c => c.check := by
  rw [load, formatOf_eq_ok.2 h]
  rfl

/-- What can be loaded: a valid configuration that the text of the file holds. -/
theorem load_eq_ok_iff {read? : String → Option String} : load read? path = .ok c ↔
    ∃ (f : DocumentFormat) (text : String), Path.extension? path = some f.extension ∧
      read? path = some text ∧ ofText? text f = some c ∧ c.fault? = none := by
  constructor
  · intro h
    cases hformat : formatOf path with
    | error e =>
      rw [load, hformat] at h
      cases h
    | ok f =>
      have hext := formatOf_eq_ok.1 hformat
      rw [load_of_extension? read? hext] at h
      split at h
      · cases h
      · rename_i text htext
        split at h
        · cases h
        · rename_i d hd
          obtain ⟨rfl, hvalid⟩ := check_eq_ok.1 h
          exact ⟨f, text, hext, htext, hd, hvalid⟩
  · rintro ⟨f, text, hext, htext, hc, hvalid⟩
    simp only [load_of_extension? read? hext, htext, hc]
    exact check_eq_ok.2 ⟨rfl, hvalid⟩

section Files

variable {σ : Type} (read? : σ → String → Option String) (make : String → σ → Bool × σ)
  (write : String → String → σ → Bool × σ)

/-- What becomes of a text to be saved: its directory is made first, and then it is written. -/
theorem saveTo_of_save {text : String} (files : σ) (h : c.save path = .ok text) :
    c.saveTo make write path files =
      if (prepare make path files).1 then
        (if (write path text (prepare make path files).2).1 then .ok () else .error .unwritable,
          (write path text (prepare make path files).2).2)
      else (.error .noDirectory, (prepare make path files).2) := by
  rw [saveTo, h]

/-- A configuration or a name that is refused leaves the files alone. -/
theorem saveTo_of_save_eq_error {fault : SettingsFault} {files : σ}
    (h : c.save path = .error fault) :
    c.saveTo make write path files = (.error (.settings fault), files) := by
  rw [saveTo, h]

/-- **Saved configurations load back, and only valid ones cross the boundary of a file.**  Let the
text that was written to the file be what is read from it.  A valid configuration is saved if the
directory of its file can be made and its text can be written, and loading the file gives it again;
for the notation of JSON the texts of its numbers are to be read as the doubles they were written
for.  A directory that cannot be made and a text that cannot be written are told apart.  An invalid
configuration is refused, so is a file with another extension, and no file changes.  And what is
loaded from any file is valid, is what the file holds, and has its default wherever the file leaves
it out. -/
theorem load_saveTo (c : Config Float) (path : String) (files : σ)
    (hread : ∀ text, (write path text (prepare make path files).2).1 = true →
      read? (write path text (prepare make path files).2).2 path = some text) :
    (∀ f : DocumentFormat, c.fault? = none → Path.extension? path = some f.extension →
      let prepared := prepare make path files
      let written := write path (c.toText f) prepared.2
      ((f = .json → ∀ s x, c.value? s = some x → Survives x) →
        prepared.1 = true → written.1 = true →
        (c.saveTo make write path files).1 = .ok () ∧
          load (read? (c.saveTo make write path files).2) path = .ok c) ∧
      (prepared.1 = false → c.saveTo make write path files = (.error .noDirectory, prepared.2)) ∧
      (prepared.1 = true → written.1 = false →
        c.saveTo make write path files = (.error .unwritable, written.2))) ∧
    (∀ s, c.fault? = some s →
      c.saveTo make write path files = (.error (.settings (.invalid s)), files)) ∧
    (c.fault? = none → (∀ f : DocumentFormat, Path.extension? path ≠ some f.extension) →
      c.saveTo make write path files =
        (.error (.settings (.unsupported (Path.extension? path))), files)) ∧
    ∀ d, load (read? files) path = .ok d → d.fault? = none ∧
      ∃ (f : DocumentFormat) (text : String) (v : Node),
        Path.extension? path = some f.extension ∧ read? files path = some text ∧
        f.read? text = some v ∧ ofNode? f.convention v = some d ∧
        ∀ i j name key u, d.keyAt? i j = some (name, key, u) → LeftOut v i name j key →
          Config.default.keyAt? i j = some (name, key, u) := by
  refine ⟨fun f hvalid hext => ?_, fun s hs => ?_, fun hvalid hext => ?_, fun d hd => ?_⟩
  · have hsaved := saveTo_of_save make write files (save_eq_ok hvalid hext)
    dsimp only
    refine ⟨fun hjson hmake hwrite => ?_, fun hmake => ?_, fun hmake hwrite => ?_⟩
    · rw [hsaved, if_pos hmake, if_pos hwrite]
      exact ⟨rfl,
        load_eq_ok_iff.2 ⟨f, _, hext, hread _ hwrite, ofText?_toText hvalid hjson, hvalid⟩⟩
    · rw [hsaved, if_neg (Bool.eq_false_iff.1 hmake)]
    · rw [hsaved, if_pos hmake, if_neg (Bool.eq_false_iff.1 hwrite)]
  · apply saveTo_of_save_eq_error
    rw [save, check, hs]
    rfl
  · apply saveTo_of_save_eq_error
    rw [save, check_of_fault?_eq_none hvalid, formatOf_eq_error hext]
    rfl
  · obtain ⟨f, text, hext, htext, hd, hvalid⟩ := load_eq_ok_iff.1 hd
    rw [ofText?_eq_bind, Option.bind_eq_some_iff] at hd
    obtain ⟨v, hv, hd⟩ := hd
    exact ⟨hvalid, f, text, v, hext, htext, hv, hd,
      fun i j name key u => keyAt?_of_leftOut hd⟩

/-- Some values present and some absent. -/
def sample : Config Float where
  timeStep := 0.01
  removalPolicy := .cuttingOnly
  meshKind := .surface
  overrides := { Overrides.none with cell := some 0.5, toolDiameter := some 6 }
  reportPath := some "out/collisions.csv"
  meshPath := none

/-- A file with a single key, and one in a directory of its own. -/
def partialFiles : FileTree :=
  .ofList [("run.toml", "[simulation]\ntime_step = 0.25\n"), ("out/old.toml", "")]

/-- The sample in both notations, the second in a directory that is there; with a file and with a
directory in its way; with an invalid time step, and under another extension; and what is loaded
from a file with a single key. -/
theorem load_saveTo_sample :
    let saved := sample.saveTo FileTree.makeDirectory FileTree.write
    load (saved "run.json" .empty).2.read? "run.json" = .ok sample ∧
    load (saved "out/run.toml" partialFiles).2.read? "out/run.toml" = .ok sample ∧
    saved "run.toml/out.toml" partialFiles = (.error .noDirectory, partialFiles) ∧
    saved "run.toml" (.ofList [("run.toml/old", "")]) =
      (.error .unwritable, .ofList [("run.toml/old", "")]) ∧
    { sample with timeStep := 0 }.saveTo FileTree.makeDirectory FileTree.write "run.toml"
      partialFiles = (.error (.settings (.invalid .timeStep)), partialFiles) ∧
    saved "run.yaml" .empty = (.error (.settings (.unsupported (some "yaml"))), .empty) ∧
    { (default : Config Float) with timeStep := 0.25 }.fault? = none := by
  intro saved
  have hread (path e : String) (t : FileTree) (h : Path.extension? path = some e) (text : String) :
      (t.write path text).1 = true → (t.write path text).2.read? path = some text :=
    FileTree.read?_write (Path.isNullDevice_of_extension? h)
  have hsurvives (s : Setting) (x : Float) (hx : sample.value? s = some x) : Survives x := by
    cases s <;> cases hx <;> decide +kernel
  have hsaved (path e : String) (t : FileTree) (h : Path.extension? path = some e) :=
    load_saveTo FileTree.read? FileTree.makeDirectory FileTree.write sample path t
      (hread path e _ h)
  refine ⟨?_, ?_, ?_, ?_, ?_, ?_, ?_⟩
  · exact (((hsaved "run.json" "json" .empty (by decide +kernel)).1 .json (by decide +kernel)
      (by decide +kernel)).1 (fun _ => hsurvives) (by decide +kernel) (by decide +kernel)).2
  · exact (((hsaved "out/run.toml" "toml" partialFiles (by decide +kernel)).1 .toml
      (by decide +kernel) (by decide +kernel)).1 (fun h => nomatch h) (by decide +kernel)
      (by decide +kernel)).2
  · exact ((hsaved "run.toml/out.toml" "toml" partialFiles (by decide +kernel)).1 .toml
      (by decide +kernel) (by decide +kernel)).2.1 (by decide +kernel)
  · exact ((hsaved "run.toml" "toml" _ (by decide +kernel)).1 .toml (by decide +kernel)
      (by decide +kernel)).2.2 (by decide +kernel) (by decide +kernel)
  · exact (load_saveTo FileTree.read? FileTree.makeDirectory FileTree.write
      { sample with timeStep := 0 } "run.toml" partialFiles
      (hread _ "toml" _ (by decide +kernel))).2.1 .timeStep (by decide +kernel)
  · exact (hsaved "run.yaml" "yaml" .empty (by decide +kernel)).2.2.1 (by decide +kernel)
      fun f => by cases f <;> decide +kernel
  · exact ((hsaved "run.toml" "toml" partialFiles (by decide +kernel)).2.2.2 _
      (by decide +kernel)).1

end Files

end Config

end Machining
