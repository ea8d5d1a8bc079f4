import Machining.Modal.Document
import Machining.Proofs.Document.Legible
import Machining.Proofs.Modal.Invariants
import Machining.Proofs.Program.Lines
import Machining.Scalar.Double

/-!
# Interpretations survive as documents

Every record of an interpretation is read from what is left of it in a text if its numbers are
finite, and only then; and what is read is the record.  The counts are no obstacle: tool numbers
never exceed 32 bits, and indices and lines no more than the program has lines.

* `Interpretation.numbers` — the numbers of an interpretation;
* `ModalState.ofNode?_legible`, `Command.ofNode?_legible` and others — one record each;
* `Interpretation.fits_ofBlocks` — the counts of a run;
* `Interpretation.ofJson?_toJson_ofBlocks` — whole interpretations as JSON texts.
-/

set_option autoImplicit false

namespace Machining

/-! ## The numbers of an interpretation -/

/-- The numbers of a modal state. -/
def ModalState.numbers {α : Type} (s : ModalState α) : List α :=
  s.feed :: s.spindleSpeed :: s.position.coordinates

/-- The numbers of a move. -/
def Motion.numbers {α : Type} (m : Motion α) : List α :=
  m.start.coordinates ++ m.target.coordinates ++ m.arcOffset.elim [] Point.coordinates ++
    [m.feed, m.spindleSpeed]

/-- The numbers of a command. -/
def Command.numbers {α : Type} : Command α → List α
  | motion m => m.numbers
  | toolChange _ _ _ => []
  | snapshot s _ _ => s.numbers

/-- The tool numbers of a command. -/
def Command.tools {α : Type} : Command α → List ℕ
  | motion _ => []
  | toolChange tool _ _ => [tool]
  | snapshot s _ _ => [s.tool]

/-- The numbers of an interpretation: feeds, speeds, positions, ends of moves and arc offsets. -/
def Interpretation.numbers {α : Type} (i : Interpretation α) : List α :=
  i.commands.flatMap Command.numbers ++ i.finalState.numbers

/-! ## Names -/

section Names

variable (k : Convention)

@[simp] theorem LengthUnit.ofNode?_name (u : LengthUnit) : ofNode? k (.text u.name) = some u := by
  cases u <;> rfl

@[simp] theorem DistanceMode.ofNode?_name (m : DistanceMode) :
    ofNode? k (.text m.name) = some m := by
  cases m <;> rfl

@[simp] theorem Plane.ofNode?_name (p : Plane) : ofNode? k (.text p.name) = some p := by
  cases p <;> rfl

@[simp] theorem FeedMode.ofNode?_name (m : FeedMode) : ofNode? k (.text m.name) = some m := by
  cases m
  rfl

@[simp] theorem MotionMode.ofNode?_name (m : MotionMode) : ofNode? k (.text m.name) = some m := by
  cases m <;> rfl

@[simp] theorem SpindleMode.ofNode?_name (m : SpindleMode) : ofNode? k (.text m.name) = some m := by
  cases m <;> rfl

@[simp] theorem Severity.ofNode?_name (s : Severity) : ofNode? k (.text s.name) = some s := by
  cases s <;> rfl

end Names

/-! ## Records -/

theorem ModalState.ofNode?_legible (k : Convention) {s : ModalState Float}
    (hs : s.tool ≤ largestTool) (t : ModalState Float) :
    ModalState.ofNode? k s.toNode.legible = some t ↔
      (∀ x ∈ s.numbers, x.isFinite = true) ∧ s = t := by
  have htool := Node.count?_ofCount hs
  simp [ofNode?, toNode, Node.isStructure, Node.required?, Node.part?, Option.bind_eq_some_iff,
    htool, numbers, and_assoc]

/-- The index and the line of a command are words, and its tool numbers are those of a tool. -/
structure Command.Fits {α : Type} (c : Command α) : Prop where
  block : c.block ≤ Node.largestCount
  line : c.line ≤ Node.largestCount
  tool : ∀ n ∈ c.tools, n ≤ largestTool

theorem Motion.ofNode?_legible (k : Convention) {m : Motion Float}
    (hblock : m.block ≤ Node.largestCount) (hline : m.line ≤ Node.largestCount)
    (n : Motion Float) : Motion.ofNode? k (Node.record m.fields).legible = some n ↔
      (∀ x ∈ m.numbers, x.isFinite = true) ∧ m = n := by
  have hblock := Node.count?_ofCount hblock
  have hline := Node.count?_ofCount hline
  simp [ofNode?, fields, Node.isStructure, Node.required?, Node.defaulted?, Node.part?,
    Option.bind_eq_some_iff, hblock, hline, numbers, and_assoc, or_imp, forall_and]

/-! ## Commands -/

namespace Command

/-- The command of a kind that a value stands for. -/
def ofKind? (kind : String) (v : Node) : Option (Command Float) :=
  match kind with
  | "motion" => (Motion.ofNode? convention v).map .motion
  | "tool_change" => toolChangeOfNode? convention v
  | "modal_snapshot" => snapshotOfNode? convention v
  | _ => none

/-- A command is read according to its kind. -/
theorem ofNode?_eq {v w : Node} {kind : String} (hv : v.isReadable = true)
    (h : splitKind? v = some (kind, w)) : ofNode? v = ofKind? kind w := by
  rw [ofNode?, hv, h]
  rfl

theorem toolChangeOfNode?_legible (k : Convention) {tool block line : ℕ}
    (htool : tool ≤ largestTool) (hblock : block ≤ Node.largestCount)
    (hline : line ≤ Node.largestCount) : toolChangeOfNode? k (.record [("tool", .ofCount tool),
      ("block_index", .ofCount block), ("line_number", .ofCount line)]) =
        some (.toolChange tool block line) := by
  simp [toolChangeOfNode?, Node.isStructure, Node.required?, Node.part?,
    Node.count?_ofCount htool, Node.count?_ofCount hblock, Node.count?_ofCount hline]

theorem snapshotOfNode?_legible (k : Convention) {s : ModalState Float} {block line : ℕ}
    (htool : s.tool ≤ largestTool) (hblock : block ≤ Node.largestCount)
    (hline : line ≤ Node.largestCount) (d : Command Float) :
    snapshotOfNode? k (.record [("state", s.toNode.legible), ("block_index", .ofCount block),
      ("line_number", .ofCount line)]) = some d ↔
        (∀ x ∈ s.numbers, x.isFinite = true) ∧ .snapshot s block line = d := by
  simp [snapshotOfNode?, Node.isStructure, Node.required?, Node.part?, Option.bind_eq_some_iff,
    ModalState.ofNode?_legible k htool, Node.count?_ofCount hblock, Node.count?_ofCount hline,
    and_assoc]

/-- **A command is read from what is left of it** if its numbers are finite. -/
theorem ofNode?_legible {c : Command Float} (hc : c.Fits)
    (hreadable : c.toNode.legible.isReadable = true) (d : Command Float) :
    ofNode? c.toNode.legible = some d ↔ (∀ x ∈ c.numbers, x.isFinite = true) ∧ c = d := by
  obtain ⟨hblock, hline, htool⟩ := hc
  cases c with
  | motion m =>
    have hsplit : splitKind? (motion m).toNode.legible =
        some ("motion", (Node.record m.fields).legible) := by
      simp [toNode, splitKind?, kindField, Motion.fields]
    rw [ofNode?_eq hreadable hsplit]
    refine Option.map_eq_some_iff.trans ?_
    simp only [Motion.ofNode?_legible convention hblock hline]
    constructor
    · rintro ⟨_, ⟨hfinite, rfl⟩, rfl⟩
      exact ⟨hfinite, rfl⟩
    · rintro ⟨hfinite, rfl⟩
      exact ⟨m, ⟨hfinite, rfl⟩, rfl⟩
  | toolChange tool block line =>
    have hsplit : splitKind? (toolChange tool block line).toNode.legible =
        some ("tool_change", .record [("tool", .ofCount tool), ("block_index", .ofCount block),
          ("line_number", .ofCount line)]) := by
      simp [toNode, splitKind?, kindField]
    rw [ofNode?_eq hreadable hsplit]
    have hread := toolChangeOfNode?_legible convention
      (htool tool (List.mem_singleton_self tool)) hblock hline
    refine (Eq.congr_left hread).trans ?_
    rw [Option.some.injEq]
    exact (and_iff_right (List.forall_mem_nil _)).symm
  | snapshot s block line =>
    have hsplit : splitKind? (snapshot s block line).toNode.legible =
        some ("modal_snapshot", .record [("state", s.toNode.legible),
          ("block_index", .ofCount block), ("line_number", .ofCount line)]) := by
      simp [toNode, splitKind?, kindField]
    rw [ofNode?_eq hreadable hsplit]
    exact snapshotOfNode?_legible convention (htool s.tool (List.mem_singleton_self _)) hblock
      hline d

end Command

theorem Diagnostic.ofNode?_legible (k : Convention) {d : Diagnostic}
    (hblock : d.block ≤ Node.largestCount) (hline : d.line ≤ Node.largestCount) (e : Diagnostic) :
    Diagnostic.ofNode? k d.toNode.legible = some e ↔ d = e := by
  simp [ofNode?, toNode, Node.isStructure, Node.required?, Node.part?,
    Node.count?_ofCount hblock, Node.count?_ofCount hline]

namespace Interpretation

/-- The counts of an interpretation fit their fields. -/
structure Fits {α : Type} (i : Interpretation α) : Prop where
  commands : ∀ c ∈ i.commands, c.Fits
  diagnostics : ∀ d ∈ i.diagnostics, d.block ≤ Node.largestCount ∧ d.line ≤ Node.largestCount
  finalState : i.finalState.tool ≤ largestTool

/-- **An interpretation is read from what is left of it** if its numbers are finite. -/
theorem ofNode?_legible {i : Interpretation Float} (hi : i.Fits)
    (hreadable : ∀ c ∈ i.commands, c.toNode.legible.isReadable = true)
    (j : Interpretation Float) :
    ofNode? i.toNode.legible = some j ↔ (∀ x ∈ i.numbers, x.isFinite = true) ∧ i = j := by
  have hcommands := Node.listOf?_legible i.commands fun c hc =>
    Command.ofNode?_legible (hi.commands c hc) (hreadable c hc)
  have hdiagnostics := Node.listOf?_legible (P := fun _ => True) i.diagnostics
    fun d hd e => by
      obtain ⟨hblock, hline⟩ := hi.diagnostics d hd
      rw [true_and, Diagnostic.ofNode?_legible Json.convention hblock hline]
  have hstate := ModalState.ofNode?_legible Json.convention hi.finalState
  have hnumbers : (∀ x ∈ i.numbers, x.isFinite = true) ↔
      (∀ c ∈ i.commands, ∀ x ∈ c.numbers, x.isFinite = true) ∧
        ∀ x ∈ i.finalState.numbers, x.isFinite = true := by
    rw [numbers, List.forall_mem_append, List.forall_mem_flatMap]
  simp [ofNode?, toNode, Node.isStructure, Node.required?, Node.part?, Option.bind_eq_some_iff,
    hcommands, hdiagnostics, hstate, hnumbers, and_assoc, -Node.legible_list]

/-! ## The counts of a run -/

section Run

variable {α : Type} [Scalar α] {bs : List (Block α)}

/-- **What each block gives its commands and keeps of the state** holds of a run. -/
theorem forall_commands (P : Command α → Prop) (Q : ModalState α → Prop)
    (hstep : ∀ b ∈ bs, ∀ s i, Q s →
      (∀ c ∈ (ofBlock s i b).commands, P c) ∧ Q (ofBlock s i b).finalState) :
    ∀ s i, Q s →
      (∀ c ∈ (ofBlocksFrom s i bs).commands, P c) ∧ Q (ofBlocksFrom s i bs).finalState := by
  induction bs with
  | nil => exact fun s i hs => ⟨List.forall_mem_nil _, hs⟩
  | cons b bs ih =>
    intro s i hs
    obtain ⟨hb, hbs⟩ := List.forall_mem_cons.1 hstep
    obtain ⟨hcommands, hstate⟩ := hb s i hs
    obtain ⟨hrest, hfinal⟩ := ih hbs _ (i + 1) hstate
    exact ⟨List.forall_mem_append.2 ⟨hcommands, hrest⟩, hfinal⟩

theorem toolNumber_le (v : α) : toolNumber v ≤ largestTool := Nat.min_le_right _ _

/-- The tools of one block are those of a tool. -/
theorem tool_ofBlock (b : Block α) {s : ModalState α} (i : ℕ) (hs : s.tool ≤ largestTool) :
    (∀ c ∈ (ofBlock s i b).commands, ∀ n ∈ c.tools, n ≤ largestTool) ∧
      (ofBlock s i b).finalState.tool ≤ largestTool := by
  have hstate : (ofBlock s i b).finalState.tool ≤ largestTool := by
    rw [finalState_ofBlock]
    split
    · change ((b.value? 'T').map toolNumber).getD s.tool ≤ largestTool
      cases b.value? 'T' with
      | none => exact hs
      | some v => exact toolNumber_le v
    · exact hs
  refine ⟨?_, hstate⟩
  by_cases hb : b.isExecutable = true
  · rw [ofBlock_of_isExecutable s i hb] at hstate ⊢
    intro c hc n hn
    simp only [commands_ofWords, List.mem_append, List.mem_map, List.mem_singleton] at hc
    rcases hc with (⟨_, -, rfl⟩ | hc) | rfl
    · rwa [List.mem_singleton.1 hn]
    · split at hc
      · rw [List.mem_singleton.1 hc] at hn
        cases hn
      · cases hc
    · rwa [List.mem_singleton.1 hn]
  · rw [Bool.not_eq_true] at hb
    rw [(ofBlock_of_not_isExecutable s i hb).1]
    exact List.forall_mem_nil _

theorem exists_line_of_mem_diagnostics {d : Diagnostic} : ∀ {s : ModalState α} {i : ℕ},
    d ∈ (ofBlocksFrom s i bs).diagnostics → ∃ b ∈ bs, d.line = b.line := by
  induction bs with
  | nil => exact fun hd => nomatch hd
  | cons b bs ih =>
    intro s i hd
    rcases List.mem_append.1 hd with hd | hd
    · exact ⟨b, List.mem_cons_self, line_of_mem_diagnostics hd⟩
    · obtain ⟨b', hb', hline⟩ := ih hd
      exact ⟨b', List.mem_cons_of_mem b hb', hline⟩

/-- **The counts of a run fit their fields** if its blocks and their lines can be counted. -/
theorem fits_ofBlocks (hlength : bs.length ≤ Node.largestCount)
    (hlines : ∀ b ∈ bs, b.line ≤ Node.largestCount) : (ofBlocks bs).Fits := by
  have hindexed := indexed_ofBlocksFrom bs ModalState.powerOn 0
  rw [Nat.zero_add] at hindexed
  have hrun := forall_commands
    (fun c : Command α => c.line ≤ Node.largestCount ∧ ∀ n ∈ c.tools, n ≤ largestTool)
    (fun s => s.tool ≤ largestTool) (fun b (hb : b ∈ bs) s i hs => by
      obtain ⟨htools, hstate⟩ := tool_ofBlock b i hs
      refine ⟨fun c hc => ⟨?_, htools c hc⟩, hstate⟩
      rw [line_of_mem_commands hc]
      exact hlines b hb) ModalState.powerOn 0 (Nat.zero_le _)
  constructor
  · intro c hc
    obtain ⟨hline, htool⟩ := hrun.1 c hc
    have hblock := (hindexed.commands.within c.block (List.mem_map_of_mem hc)).2
    exact ⟨by omega, hline, htool⟩
  · intro d hd
    obtain ⟨b, hb, hline⟩ := exists_line_of_mem_diagnostics hd
    have hblock := (hindexed.diagnostics.within d.block (List.mem_map_of_mem hd)).2
    exact ⟨by omega, hline ▸ hlines b hb⟩
  · exact hrun.2

/-- The counts of a program are those of its lines. -/
theorem fits_parse {source : String}
    (h : (Program.parse source : List (Block α)).length ≤ Node.largestCount) :
    (ofBlocks (Program.parse source : List (Block α))).Fits := by
  refine fits_ofBlocks h fun b hb => ?_
  obtain ⟨i, hi, rfl⟩ := List.getElem_of_mem hb
  have hline := Program.line_of_parse (List.getElem?_eq_getElem hi)
  omega

end Run

end Interpretation

/-! ## Texts -/

section Writing

open Json (Writable Survives)

variable {n : ℕ}

theorem ModalState.writable_toNode {s : ModalState Float} (hs : s.tool ≤ largestTool)
    (h : ∀ x ∈ s.numbers, x.isFinite = true → Survives x) : Writable (n + 2) s.toNode := by
  have hposition : Writable (n + 1) s.position.toNode :=
    Point.writable_toNode fun x hx => h x (by simp [numbers, hx])
  have htool : Writable (n + 1) (.ofCount s.tool) := Node.writable_ofCount hs (by decide)
  refine .record ?_
  simp only [List.forall_mem_cons]
  exact ⟨.text _, .text _, .text _, .text _, .text _, .real (h s.feed (by simp [numbers])),
    .text _, .real (h s.spindleSpeed (by simp [numbers])), .text _, htool, hposition,
    List.forall_mem_nil _⟩

theorem Motion.writable_fields {m : Motion Float} (hblock : m.block ≤ Node.largestCount)
    (hline : m.line ≤ Node.largestCount)
    (h : ∀ x ∈ m.numbers, x.isFinite = true → Survives x) :
    ∀ f ∈ m.fields, Writable (n + 2) f.2 := by
  have hstart : Writable (n + 2) m.start.toNode :=
    Point.writable_toNode fun x hx => h x (by simp [numbers, hx])
  have htarget : Writable (n + 2) m.target.toNode :=
    Point.writable_toNode fun x hx => h x (by simp [numbers, hx])
  have harc : Writable (n + 2) (.ofOption Point.toNode m.arcOffset) :=
    Point.writable_ofOption fun x hx => h x (by simp [numbers, hx])
  have hblock : Writable (n + 2) (.ofCount m.block) := Node.writable_ofCount hblock le_rfl
  have hline : Writable (n + 2) (.ofCount m.line) := Node.writable_ofCount hline le_rfl
  simp only [fields, List.forall_mem_cons]
  exact ⟨.text _, .text _, hstart, htarget, harc, .real (h m.feed (by simp [numbers])),
    .real (h m.spindleSpeed (by simp [numbers])), .text _, .text _, hblock, hline,
    List.forall_mem_nil _⟩

theorem Command.writable_toNode {c : Command Float} (hc : c.Fits)
    (h : ∀ x ∈ c.numbers, x.isFinite = true → Survives x) : Writable (n + 3) c.toNode := by
  obtain ⟨hblock, hline, htool⟩ := hc
  have hblock' : Writable (n + 2) (.ofCount c.block) := Node.writable_ofCount hblock le_rfl
  have hline' : Writable (n + 2) (.ofCount c.line) := Node.writable_ofCount hline le_rfl
  cases c with
  | motion m =>
    refine .record ?_
    exact List.forall_mem_cons.2 ⟨.text _, Motion.writable_fields hblock hline h⟩
  | toolChange tool block line =>
    have htool : Writable (n + 2) (.ofCount tool) :=
      Node.writable_ofCount (htool tool (List.mem_singleton_self _)) (by decide)
    refine .record ?_
    simp only [List.forall_mem_cons]
    exact ⟨.text _, htool, hblock', hline', List.forall_mem_nil _⟩
  | snapshot s block line =>
    have hstate : Writable (n + 2) s.toNode :=
      ModalState.writable_toNode (htool s.tool (List.mem_singleton_self _)) h
    refine .record ?_
    simp only [List.forall_mem_cons]
    exact ⟨.text _, hstate, hblock', hline', List.forall_mem_nil _⟩

theorem Diagnostic.writable_toNode {d : Diagnostic} (hblock : d.block ≤ Node.largestCount)
    (hline : d.line ≤ Node.largestCount) : Writable (n + 1) d.toNode := by
  have hblock : Writable n (.ofCount d.block) := Node.writable_ofCount hblock le_rfl
  have hline : Writable n (.ofCount d.line) := Node.writable_ofCount hline le_rfl
  refine .record ?_
  simp only [List.forall_mem_cons]
  exact ⟨hblock, hline, .text _, .text _, List.forall_mem_nil _⟩

namespace Interpretation

variable {i : Interpretation Float}

theorem writable_toNode (hi : i.Fits)
    (h : ∀ x ∈ i.numbers, x.isFinite = true → Survives x) : Writable (n + 5) i.toNode := by
  rw [numbers, List.forall_mem_append, List.forall_mem_flatMap] at h
  have hcommands : ∀ v ∈ i.commands.map Command.toNode, Writable (n + 3) v :=
    List.forall_mem_map.2 fun c hc => Command.writable_toNode (hi.commands c hc) (h.1 c hc)
  have hdiagnostics : ∀ v ∈ i.diagnostics.map Diagnostic.toNode, Writable (n + 3) v :=
    List.forall_mem_map.2 fun d hd =>
      Diagnostic.writable_toNode (hi.diagnostics d hd).1 (hi.diagnostics d hd).2
  refine .record ?_
  simp only [List.forall_mem_cons]
  exact ⟨.list hcommands, .list hdiagnostics, ModalState.writable_toNode hi.finalState h.2,
    List.forall_mem_nil _⟩

/-- **An interpretation is read from its text** if its numbers are finite. -/
theorem ofJson?_toJson (hi : i.Fits) (h : ∀ x ∈ i.numbers, x.isFinite = true → Survives x)
    (j : Interpretation Float) :
    ofJson? i.toJson = some j ↔ (∀ x ∈ i.numbers, x.isFinite = true) ∧ i = j := by
  have hnumbers := h
  rw [numbers, List.forall_mem_append, List.forall_mem_flatMap] at hnumbers
  have hreadable (c) (hc : c ∈ i.commands) : c.toNode.legible.isReadable = true := by
    have hwritable : Writable 3 c.toNode :=
      Command.writable_toNode (hi.commands c hc) (hnumbers.1 c hc)
    exact Node.isReadable_legible hwritable
  have hread : Json.read? i.toJson = some i.toNode.legible :=
    Json.read?_write (writable_toNode hi h)
  rw [ofJson?, hread, Option.bind_some]
  exact ofNode?_legible hi hreadable j

/-- **What survives of a program's interpretation.**  The text of the interpretation is read if
all its numbers are finite, and then as that interpretation; otherwise it is refused.  The number
texts are to be read as the doubles they were written for, and the program is to have no more
lines than a field can count. -/
theorem ofJson?_toJson_ofBlocks (source : String)
    (hlength : (Program.parse source : List (Block Float)).length < UInt64.size)
    (hnumbers : ∀ x ∈ (ofBlocks (Program.parse source) : Interpretation Float).numbers,
      x.isFinite = true → Survives x) :
    ((ofJson? (ofBlocks (Program.parse source)).toJson).isSome = true ↔
        ∀ x ∈ (ofBlocks (Program.parse source) : Interpretation Float).numbers,
          x.isFinite = true) ∧
      ∀ j, ofJson? (ofBlocks (Program.parse source)).toJson = some j →
        j = ofBlocks (Program.parse source) := by
  have hfits : (ofBlocks (Program.parse source : List (Block Float))).Fits :=
    fits_parse (Nat.le_sub_one_of_lt hlength)
  have hread := ofJson?_toJson hfits hnumbers
  refine ⟨?_, fun j hj => ((hread j).1 hj).2.symm⟩
  rw [Option.isSome_iff_exists]
  constructor
  · rintro ⟨j, hj⟩
    exact ((hread j).1 hj).1
  · exact fun hfinite => ⟨_, (hread _).2 ⟨hfinite, rfl⟩⟩

/-- An arc, a faulty line and a tool change. -/
theorem ofJson?_toJson_ofBlocks_arc :
    (ofJson? (ofBlocks (Program.parse "G3 X1.5 Y-0 I.25\nG1 \"T\\\nT7 M6")).toJson).isSome =
      true :=
  (ofJson?_toJson_ofBlocks "G3 X1.5 Y-0 I.25\nG1 \"T\\\nT7 M6" (by decide +kernel)
    (by decide +kernel)).1.2 (by decide +kernel)

end Interpretation

end Writing

end Machining
