import Machining.Proofs.Modal.Inches
import Machining.Proofs.Modal.Invariants
import Machining.Proofs.Modal.WordOrder

/-!
# Incremental programs

A program in increments and its translation into absolute places are interpreted alike.  The
translation looks at the run itself: the first value of each axis in an executed block becomes the
place it leads to from where the run has come.  Both runs are then in the same place after every
block, although one of them knows only the way there.

* `Word.changeFirst` — the first word of a letter shows another value;
* `Block.placed`, `Block.places_placed` — a block that names places instead of ways, and what it
  shares with the block it stands for;
* `ofBlock_placed` — one block and its translation;
* `ofBlocksFrom_placed` — blocks that choose neither unit nor distance mode;
* `ofBlocksFrom_increments` — a whole program after its distance mode is chosen.
-/

set_option autoImplicit false

namespace Machining

variable {α : Type}

/-! ## Translation -/

/-- The words of which the first with the letter shows another value. -/
def Word.changeFirst (letter : Char) (f : α → α) : List (Word α) → List (Word α)
  | [] => []
  | w :: ws =>
    if w.letter = letter then ⟨w.letter, f w.value⟩ :: ws else w :: changeFirst letter f ws

/-- The block of which the first word with the letter shows another value. -/
def Block.changeFirst (letter : Char) (f : α → α) (b : Block α) : Block α :=
  { b with words := Word.changeFirst letter f b.words }

/-- The block with the places to which its axis words lead from `p`, if it is executed. -/
def Block.placed [Scalar α] (p : Point α) (b : Block α) : Block α :=
  if b.isExecutable then
    ((b.changeFirst 'X' (p.x + ·)).changeFirst 'Y' (p.y + ·)).changeFirst 'Z' (p.z + ·)
  else b

/-- The word leaves the meaning of coordinates: it is none of G20, G21, G90 and G91. -/
def Word.KeepsCoordinates [Scalar α] (w : Word α) : Prop :=
  w.letter = 'G' → Scalar.truncate w.value ∉ [20, 21, 90, 91]

instance [Scalar α] (w : Word α) : Decidable w.KeepsCoordinates :=
  inferInstanceAs (Decidable (w.letter = 'G' → Scalar.truncate w.value ∉ [20, 21, 90, 91]))

/-- No word of the block chooses a unit or a distance mode. -/
def Block.KeepsCoordinates [Scalar α] (b : Block α) : Prop := ∀ w ∈ b.words, w.KeepsCoordinates

instance [Scalar α] (b : Block α) : Decidable b.KeepsCoordinates :=
  inferInstanceAs (Decidable (∀ w ∈ b.words, w.KeepsCoordinates))

/-- The code that chooses a distance mode. -/
def DistanceMode.code : DistanceMode → Int
  | absolute => 90
  | incremental => 91

/-- The block does nothing but choose the distance mode. -/
structure Block.SelectsMode [Scalar α] (b : Block α) (d : DistanceMode) : Prop where
  faults : b.faults = []
  words : ∃ v : α, b.words = [⟨'G', v⟩] ∧ Scalar.truncate v = d.code

/-- The state with another distance mode. -/
def ModalState.withMode (d : DistanceMode) (s : ModalState α) : ModalState α :=
  { s with distanceMode := d }

/-- The command with another distance mode in the state it shows. -/
def Command.withMode (d : DistanceMode) : Command α → Command α
  | snapshot state block line => snapshot (state.withMode d) block line
  | c => c

/-- The interpretation with another distance mode in all states. -/
def Interpretation.withMode (d : DistanceMode) (i : Interpretation α) : Interpretation α :=
  ⟨i.commands.map (Command.withMode d), i.diagnostics, i.finalState.withMode d⟩

theorem Interpretation.withMode_append (d : DistanceMode) (a b : Interpretation α) :
    (a.append b).withMode d = (a.withMode d).append (b.withMode d) := by
  simp only [withMode, append, List.map_append]

/-! ## Words with another value -/

section Words

variable {letter : Char} {f : α → α}

theorem Word.map_letter_changeFirst (ws : List (Word α)) :
    (changeFirst letter f ws).map Word.letter = ws.map Word.letter := by
  induction ws with
  | nil => rfl
  | cons w ws ih =>
    rw [changeFirst]
    split
    · rfl
    · rw [List.map_cons, ih, List.map_cons]

theorem Word.filter_changeFirst {p : Word α → Bool} (hp : ∀ w, w.letter = letter → p w = false)
    (ws : List (Word α)) : (changeFirst letter f ws).filter p = ws.filter p := by
  induction ws with
  | nil => rfl
  | cons w ws ih =>
    rw [changeFirst]
    split
    · rename_i hw
      have hchanged : p ⟨w.letter, f w.value⟩ = false := hp _ hw
      simp [hchanged, hp w hw]
    · rw [List.filter_cons, List.filter_cons, ih]

/-- **The first value of a letter is another one**, and those of the others stay. -/
theorem Block.value?_changeFirst (b : Block α) (l : Char) : (b.changeFirst letter f).value? l =
    if l = letter then (b.value? l).map f else b.value? l := by
  unfold value? changeFirst
  dsimp only
  induction b.words with
  | nil => simp [Word.changeFirst]
  | cons w ws ih =>
    rw [Word.changeFirst]
    split
    · rename_i hw
      by_cases hl : l = letter
      · simp [hw, hl]
      · have hne : ¬ letter = l := fun h => hl h.symm
        simp [hw, hl, hne]
    · rename_i hw
      rw [List.find?_cons, List.find?_cons]
      by_cases hl : w.letter = l
      · have hne : l ≠ letter := fun h => hw (hl.trans h)
        simp [hl, hne]
      · rw [beq_eq_false_iff_ne.2 hl]
        exact ih

end Words

variable [Scalar α]

/-- What a block shares with one that shows the places to which its axis words lead from `p`. -/
structure Block.Places (p : Point α) (b c : Block α) : Prop where
  line : c.line = b.line
  isExecutable : c.isExecutable = b.isExecutable
  codes : (c.words.filter fun w => isCodeLetter w.letter) =
    b.words.filter fun w => isCodeLetter w.letter
  letters : c.words.map Word.letter = b.words.map Word.letter
  x : c.value? 'X' = (b.value? 'X').map (p.x + ·)
  y : c.value? 'Y' = (b.value? 'Y').map (p.y + ·)
  z : c.value? 'Z' = (b.value? 'Z').map (p.z + ·)
  rest : ∀ l ∈ ['F', 'S', 'T', 'I', 'J', 'K'], c.value? l = b.value? l

/-- **An executed block and its translation.** -/
theorem Block.places_placed (p : Point α) {b : Block α} (hb : b.isExecutable = true) :
    b.Places p (b.placed p) := by
  have hcode (l : Char) (hl : isCodeLetter l = false) (w : Word α) (hw : w.letter = l) :
      isCodeLetter w.letter = false := hw ▸ hl
  have hletters : (b.placed p).words.map Word.letter = b.words.map Word.letter := by
    simp only [placed, if_pos hb, changeFirst, Word.map_letter_changeFirst]
  refine ⟨?line, ?isExecutable, ?codes, hletters, ?x, ?y, ?z, fun l hl => ?rest⟩
  case line => simp only [placed, if_pos hb, changeFirst]
  case isExecutable =>
    have hempty : (b.placed p).words.isEmpty = b.words.isEmpty := by
      rw [← List.isEmpty_map (f := Word.letter), hletters, List.isEmpty_map]
    have hfaults : (b.placed p).faults = b.faults := by
      simp only [placed, if_pos hb, changeFirst]
    rw [Block.isExecutable, hempty, hfaults, Block.isExecutable]
  case codes =>
    simp only [placed, if_pos hb, changeFirst]
    rw [Word.filter_changeFirst (hcode 'Z' rfl), Word.filter_changeFirst (hcode 'Y' rfl),
      Word.filter_changeFirst (hcode 'X' rfl)]
  case x => simp [placed, hb, value?_changeFirst]
  case y => simp [placed, hb, value?_changeFirst]
  case z => simp [placed, hb, value?_changeFirst]
  case rest =>
    have hne : l ≠ 'X' ∧ l ≠ 'Y' ∧ l ≠ 'Z' := by
      refine ⟨?_, ?_, ?_⟩ <;> rintro rfl <;> revert hl <;> decide
    simp only [placed, if_pos hb, value?_changeFirst, if_neg hne.1, if_neg hne.2.1, if_neg hne.2.2]

/-- Words that leave the meaning of coordinates choose no unit and no distance mode. -/
theorem Block.KeepsCoordinates.last? {b : Block α} (hb : b.KeepsCoordinates) :
    ModalGroup.unit.last? b.words = none ∧ ModalGroup.distance.last? b.words = none := by
  have hunit : ModalGroup.unit.choices.map Prod.fst ⊆ [20, 21, 90, 91] := by decide
  have hmode : ModalGroup.distance.choices.map Prod.fst ⊆ [20, 21, 90, 91] := by decide
  exact ⟨ModalGroup.last?_eq_none fun w hw hletter hcode => hb w hw hletter (hunit hcode),
    ModalGroup.last?_eq_none fun w hw hletter hcode => hb w hw hletter (hmode hcode)⟩

namespace Interpretation

/-! ## One block -/

section Blocks

variable {s : ModalState α} {b c : Block α}

/-- **The state after a block** of ways and after the block of places. -/
theorem after_places (hunit : s.unit = .millimetre) (hmode : s.distanceMode = .incremental)
    (hb : b.KeepsCoordinates) (h : b.Places s.position c) :
    after (s.withMode .absolute) c = (after s b).withMode .absolute := by
  obtain ⟨hnoUnit, hnoMode⟩ := hb.last?
  have hlast {β : Type} {g : ModalGroup β} {field : ModalState α → β} (hg : g.Governs field) :
      g.last? c.words = g.last? b.words := hg.last?_congr h.codes
  -- to go a way and to go where it leads is one sum
  have hmoved (x : α) (v : Option α) : moved .millimetre .absolute x (v.map (x + ·)) =
      moved .millimetre .incremental x v := by
    cases v <;> rfl
  simp only [after, ModalState.withMode, hlast ModalGroup.governs_unit,
    hlast ModalGroup.governs_distance, hlast ModalGroup.governs_plane,
    hlast ModalGroup.governs_motion, hlast ModalGroup.governs_spindle,
    hlast ModalGroup.governs_workOffset, hnoUnit, hnoMode, h.x, h.y, h.z,
    h.rest 'F' (by decide), h.rest 'S' (by decide), h.rest 'T' (by decide), Option.getD_none,
    hunit, hmode, hmoved]

theorem namesAxis_places {p : Point α} (h : b.Places p c) : c.namesAxis = b.namesAxis := by
  have hany (d : Block α) :
      d.namesAxis = (d.words.map Word.letter).any fun l => ['X', 'Y', 'Z'].contains l := by
    rw [List.any_map]
    rfl
  rw [hany, h.letters, hany]

theorem arcOffset_places {p : Point α} (h : b.Places p c) (u : LengthUnit) :
    arcOffset (Registers.ofWords c.words) u = arcOffset (Registers.ofWords b.words) u := by
  refine arcOffset_congr (fun l hl => ?_) u
  have hslots : (['I', 'J', 'K'].all fun l => (Registers.slot? l).isSome) = true := rfl
  have hslot := List.all_eq_true.1 hslots l hl
  have hsame : c.value? l = b.value? l := h.rest l (List.mem_append_right ['F', 'S', 'T'] hl)
  rw [Registers.get?_ofWords hslot, Registers.get?_ofWords hslot]
  exact hsame

/-- Of words with the same codes those are the same that are codes of a kind. -/
theorem filter_places {p : Point α} (h : b.Places p c) {q : Word α → Bool}
    (hq : ∀ w, q w = true → isCodeLetter w.letter = true) :
    c.words.filter q = b.words.filter q := by
  rw [← filter_codes hq, h.codes, filter_codes hq]

/-- **An executed block** of ways and the block of places yield the same, up to the distance mode
shown. -/
theorem ofWords_of_places (hunit : s.unit = .millimetre) (hmode : s.distanceMode = .incremental)
    (hb : b.KeepsCoordinates) (h : b.Places s.position c) (i : Nat) :
    ofWords (s.withMode .absolute) i c.line c.words =
      (ofWords s i b.line b.words).withMode .absolute := by
  have hstate := after_places hunit hmode hb h
  have hchanges : c.words.filter Word.asksForTool = b.words.filter Word.asksForTool :=
    filter_places h fun _ => isCodeLetter_of_asksForTool
  have hmove : Motion.between (s.withMode .absolute) ((after s b).withMode .absolute) i c =
      Motion.between s (after s b) i b := by
    unfold Motion.between
    rw [arcOffset_places h, h.line]
    rfl
  have hcommands : (ofWords (s.withMode .absolute) i c.line c.words).commands =
      (ofWords s i b.line b.words).commands.map (Command.withMode .absolute) := by
    rw [commands_ofWords, commands_ofWords, finalState_ofWords, finalState_ofWords, hstate, hmove,
      hchanges, namesAxis_places h, h.line, List.map_append, List.map_append, List.map_map]
    split <;> rfl
  have hdiagnostics : (ofWords (s.withMode .absolute) i c.line c.words).diagnostics =
      (ofWords s i b.line b.words).diagnostics := by
    rw [diagnostics_ofWords, diagnostics_ofWords, h.line,
      filter_places h fun _ => isCodeLetter_of_isUnsupported]
  have hfinal : (ofWords (s.withMode .absolute) i c.line c.words).finalState =
      (ofWords s i b.line b.words).finalState.withMode .absolute := by
    rw [finalState_ofWords, finalState_ofWords, hstate]
  unfold withMode
  rw [← hcommands, ← hdiagnostics, ← hfinal]

/-- **A block** and its translation. -/
theorem ofBlock_placed (hunit : s.unit = .millimetre) (hmode : s.distanceMode = .incremental)
    (hb : b.KeepsCoordinates) (i : Nat) :
    ofBlock (s.withMode .absolute) i (b.placed s.position) =
        (ofBlock s i b).withMode .absolute ∧
      (ofBlock s i b).finalState.unit = .millimetre ∧
      (ofBlock s i b).finalState.distanceMode = .incremental := by
  by_cases hrun : b.isExecutable = true
  · have hplaces := b.places_placed s.position hrun
    obtain ⟨hnoUnit, hnoMode⟩ := hb.last?
    rw [ofBlock_of_isExecutable s i hrun,
      ofBlock_of_isExecutable _ i (hplaces.isExecutable.trans hrun), finalState_ofWords]
    refine ⟨ofWords_of_places hunit hmode hb hplaces i, ?_, ?_⟩
    · simp only [after, hnoUnit, Option.getD_none, hunit]
    · simp only [after, hnoMode, Option.getD_none, hmode]
  · rw [Block.placed, if_neg hrun]
    rw [Bool.not_eq_true] at hrun
    rw [ofBlock_eq_report _ i hrun, ofBlock_eq_report s i hrun]
    exact ⟨rfl, hunit, hmode⟩

/-! ## Programs -/

/-- The program whose blocks name the places to which they lead from where the run has come. -/
def placedFrom (s : ModalState α) (i : Nat) (bs : List (Block α)) : List (Block α) :=
  bs.mapIdx fun k b => b.placed (ofBlocksFrom s i (bs.take k)).finalState.position

theorem placedFrom_cons (s : ModalState α) (i : Nat) (b : Block α) (bs : List (Block α)) :
    placedFrom s i (b :: bs) =
      b.placed s.position :: placedFrom (ofBlock s i b).finalState (i + 1) bs :=
  List.mapIdx_cons

/-- **Blocks that leave the meaning of coordinates** and their translation. -/
theorem ofBlocksFrom_placed (bs : List (Block α)) (hbs : ∀ b ∈ bs, b.KeepsCoordinates) :
    ∀ (s : ModalState α) (i : Nat), s.unit = .millimetre → s.distanceMode = .incremental →
      ofBlocksFrom (s.withMode .absolute) i (placedFrom s i bs) =
        (ofBlocksFrom s i bs).withMode .absolute := by
  induction bs with
  | nil => exact fun _ _ _ _ => rfl
  | cons b bs ih =>
    intro s i hunit hmode
    obtain ⟨hfirst, hunit', hmode'⟩ := ofBlock_placed hunit hmode (hbs b List.mem_cons_self) i
    -- the block leaves both runs in one place, from which the next block is translated
    have hrest := ih (fun c hc => hbs c (List.mem_cons_of_mem _ hc)) _ (i + 1) hunit' hmode'
    rw [placedFrom_cons, ofBlocksFrom, ofBlocksFrom, withMode_append, ← hrest, hfirst]
    rfl

end Blocks

/-- A block that does nothing but choose the distance mode. -/
theorem ofBlock_selectsMode {b : Block α} {d : DistanceMode} (hb : b.SelectsMode d)
    (s : ModalState α) (i : Nat) :
    ofBlock s i b = ⟨[.snapshot (s.withMode d) i b.line], [], s.withMode d⟩ := by
  obtain ⟨v, hwords, hv⟩ := hb.words
  have hcode : ModalCode.of? 'G' (Scalar.truncate v) = some (.distance d) := by
    rw [hv]
    cases d <;> rfl
  exact ofBlock_code hb.faults hwords hcode nofun s i

/-- **A program in increments means the same as its translation into absolute places.**  From every
state in millimetres, blocks that choose neither unit nor distance mode yield after a block that
chooses increments what their translation yields after a block that chooses absolute places, in
every command, diagnostic and state but for the distance mode the states show.  The translation
adds to the first value of each axis in every executed block the coordinate that the run has reached
just before that block. -/
theorem ofBlocksFrom_increments (s : ModalState α) (i : Nat) (hs : s.unit = .millimetre)
    (absolute incremental : Block α) (bs : List (Block α))
    (habsolute : absolute.SelectsMode .absolute)
    (hincremental : incremental.SelectsMode .incremental)
    (hline : absolute.line = incremental.line) (hbs : ∀ b ∈ bs, b.KeepsCoordinates) :
    let translated := bs.mapIdx fun k b =>
      b.placed (ofBlocksFrom s i (incremental :: bs.take k)).finalState.position
    ofBlocksFrom s i (absolute :: translated) =
      (ofBlocksFrom s i (incremental :: bs)).withMode .absolute := by
  intro translated
  have htranslated : translated = placedFrom (s.withMode .incremental) (i + 1) bs := by
    simp only [translated, ofBlocksFrom, ofBlock_selectsMode hincremental, finalState_append]
    rfl
  have hrest := ofBlocksFrom_placed bs hbs (s.withMode .incremental) (i + 1) hs rfl
  rw [htranslated, ofBlocksFrom, ofBlocksFrom, ofBlock_selectsMode habsolute,
    ofBlock_selectsMode hincremental, hline, withMode_append, ← hrest]
  rfl

/-- Blocks in doubles: a move with a letter twice, a block with a fault, an empty one, and a move of
two axes with a tool change. -/
def waysBack : List (Block Float) :=
  [⟨2, "", "", [⟨'G', 1⟩, ⟨'X', 1.5⟩, ⟨'X', 9⟩, ⟨'F', 200⟩], []⟩,
    ⟨3, "", "", [⟨'X', 7⟩], [.unparsedTail "Y#"]⟩, ⟨4, "", "", [], []⟩,
    ⟨5, "", "", [⟨'X', -1⟩, ⟨'Z', 2⟩, ⟨'T', 3⟩, ⟨'M', 6⟩], []⟩, ⟨6, "", "", [⟨'X', -0.5⟩], []⟩]

theorem ofBlocksFrom_increments_waysBack :
    let absolute : Block Float := ⟨1, "G90", "G90", [⟨'G', 90⟩], []⟩
    let incremental : Block Float := ⟨1, "G91", "G91", [⟨'G', 91⟩], []⟩
    let translated := waysBack.mapIdx fun k b =>
      b.placed (ofBlocks (incremental :: waysBack.take k)).finalState.position
    (ModalState.powerOn : ModalState Float).unit = .millimetre ∧
    absolute.SelectsMode .absolute ∧ incremental.SelectsMode .incremental ∧
    absolute.line = incremental.line ∧ (∀ b ∈ waysBack, b.KeepsCoordinates) ∧
    translated.map Block.words =
      [[⟨'G', 1⟩, ⟨'X', 1.5⟩, ⟨'X', 9⟩, ⟨'F', 200⟩], [⟨'X', 7⟩], [],
        [⟨'X', 0.5⟩, ⟨'Z', 2⟩, ⟨'T', 3⟩, ⟨'M', 6⟩], [⟨'X', 0⟩]] ∧
    ofBlocks (absolute :: translated) =
      (ofBlocks (incremental :: waysBack)).withMode .absolute := by
  intro absolute incremental translated
  have habsolute : absolute.SelectsMode .absolute := ⟨rfl, 90, rfl, by decide +kernel⟩
  have hincremental : incremental.SelectsMode .incremental := ⟨rfl, 91, rfl, by decide +kernel⟩
  have hkeep : ∀ b ∈ waysBack, b.KeepsCoordinates := by decide +kernel
  have htranslated : translated.map Block.words =
      [[⟨'G', 1⟩, ⟨'X', 1.5⟩, ⟨'X', 9⟩, ⟨'F', 200⟩], [⟨'X', 7⟩], [],
        [⟨'X', 0.5⟩, ⟨'Z', 2⟩, ⟨'T', 3⟩, ⟨'M', 6⟩], [⟨'X', 0⟩]] := by decide +kernel
  exact ⟨rfl, habsolute, hincremental, rfl, hkeep, htranslated,
    ofBlocksFrom_increments .powerOn 0 rfl absolute incremental waysBack habsolute hincremental rfl
      hkeep⟩

end Interpretation

end Machining
