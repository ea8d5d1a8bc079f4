import Mathlib.Data.List.Infix
import Mathlib.Data.List.Induction
import Machining.Proofs.Modal.Groups
import Machining.Proofs.Modal.Prefix
import Machining.Proofs.Modal.Registers

/-!
# Histories of the modal state

The state a program ends in is a product of histories that know nothing of each other.  A field
with a modal group shows the last choice made in that group.  Speed and tool show the first value
of their letter in the last block that has one.  The feed and the coordinates also look at the
unit and the distance mode of the block they are written in, which are histories themselves.

* `after`, `finalState_ofBlock` — one block, each field by itself;
* `histories`, `histories_concat` — the histories of a program and one block more;
* `finalState_eq_histories` — a program ends in its histories, and the words that belong to none of
  them can be deleted.
-/

set_option autoImplicit false

namespace Machining

variable {α : Type} [Scalar α]

/-! ## The last choice -/

namespace ModalGroup

variable {β : Type} {g : ModalGroup β}

/-- The choice a word makes, by its value without the fraction. -/
def ofWord? (g : ModalGroup β) (w : Word α) : Option β :=
  g.choice? w.letter (Scalar.truncate w.value)

/-- The choice of the last of the words that makes one. -/
def last? (g : ModalGroup β) (ws : List (Word α)) : Option β :=
  (ws.filterMap g.ofWord?).getLast?

theorem last?_append (ws vs : List (Word α)) :
    g.last? (ws ++ vs) = (g.last? vs).or (g.last? ws) := by
  simp [last?, List.getLast?_append]

theorem last?_cons (w : Word α) (ws : List (Word α)) :
    g.last? (w :: ws) = (g.last? ws).or (g.ofWord? w) := by
  rw [← List.singleton_append, last?_append]
  cases hw : g.ofWord? w <;> simp [last?, hw]

/-- Words that choose nothing in the group can be left out. -/
theorem last?_filter {p : Word α → Bool} (hp : ∀ w, p w = false → g.ofWord? w = none)
    (ws : List (Word α)) : g.last? (ws.filter p) = g.last? ws := by
  unfold last?
  rw [List.filterMap_filter]
  congr 2
  funext w
  by_cases hw : p w = true
  · simp [hw]
  · rw [Bool.not_eq_true] at hw
    simp [hw, hp w hw]

namespace Governs

variable {field : ModalState α → β} (h : g.Governs field)

include h

theorem ofWord?_of_not_isCodeLetter {w : Word α} (hw : isCodeLetter w.letter = false) :
    g.ofWord? w = none := by
  simp only [isCodeLetter, Bool.or_eq_false_iff, beq_eq_false_iff_ne] at hw
  exact h.choice?_of_none _ _ (ModalCode.of?_of_ne hw.1 hw.2 _)

/-- The choices are made among the G and M words. -/
theorem last?_codes (ws : List (Word α)) :
    g.last? (ws.filter fun w => isCodeLetter w.letter) = g.last? ws :=
  last?_filter (fun _ hw => h.ofWord?_of_not_isCodeLetter hw) ws

/-- Words with the same codes make the same choices. -/
theorem last?_congr {ws vs : List (Word α)} (hcodes : (ws.filter fun w => isCodeLetter w.letter) =
    vs.filter fun w => isCodeLetter w.letter) : g.last? ws = g.last? vs := by
  rw [← h.last?_codes ws, hcodes, h.last?_codes vs]

theorem field_ofCode (r : Registers α) (block line : Nat) (s : ModalState α) (w : Word α) :
    field (Interpretation.ofCode r block line s w).finalState =
      (g.ofWord? w).getD (field s) := by
  unfold Interpretation.ofCode ofWord?
  dsimp only
  split
  · rename_i hc
    exact h.getD_apply s _ _ _ hc
  · rename_i c _ hc
    exact h.getD_apply s _ _ c hc
  · rename_i hc
    rw [h.choice?_of_none _ _ hc]
    rfl

/-- **Codes leave the last choice** in the field of a group. -/
theorem field_ofCodes (r : Registers α) (block line : Nat) (ws : List (Word α)) :
    ∀ s : ModalState α, field (Interpretation.ofCodes r block line s ws).finalState =
      (g.last? ws).getD (field s) := by
  induction ws with
  | nil =>
    intro s
    rfl
  | cons w ws ih =>
    intro s
    rw [Interpretation.ofCodes, Interpretation.finalState_append, ih, h.field_ofCode, last?_cons]
    cases g.last? ws <;> rfl

theorem field_codes (r : Registers α) (block line : Nat) (s : ModalState α) (ws : List (Word α)) :
    field (Interpretation.ofCodes r block line s
      (ws.filter fun w => isCodeLetter w.letter)).finalState = (g.last? ws).getD (field s) := by
  rw [h.field_ofCodes, h.last?_codes]

end Governs

end ModalGroup

/-! ## One block -/

namespace Interpretation

/-- The state after an executed block, each field from the words that concern it. -/
def after (s : ModalState α) (b : Block α) : ModalState α :=
  let unit := (ModalGroup.unit.last? b.words).getD s.unit
  let mode := (ModalGroup.distance.last? b.words).getD s.distanceMode
  { unit := unit
    distanceMode := mode
    plane := (ModalGroup.plane.last? b.words).getD s.plane
    feedMode := .unitsPerMinute
    motionMode := (ModalGroup.motion.last? b.words).getD s.motionMode
    feed := ((b.value? 'F').map unit.toMillimetres).getD s.feed
    spindleMode := (ModalGroup.spindle.last? b.words).getD s.spindleMode
    spindleSpeed := (b.value? 'S').getD s.spindleSpeed
    workOffset := (ModalGroup.workOffset.last? b.words).getD s.workOffset
    tool := ((b.value? 'T').map toolNumber).getD s.tool
    position := ⟨moved unit mode s.position.x (b.value? 'X'),
      moved unit mode s.position.y (b.value? 'Y'), moved unit mode s.position.z (b.value? 'Z')⟩ }

/-- Without an axis word the target is the position itself. -/
theorem finalState_ofAxes (r : Registers α) (block line : Nat) (s : ModalState α) :
    (ofAxes r block line s).finalState = { s with position := target r s } := by
  unfold ofAxes
  split
  · rfl
  · rename_i hnone
    simp only [Registers.hasAny, List.any_cons, List.any_nil, Bool.or_false, Bool.or_eq_true,
      not_or, Option.not_isSome_iff_eq_none] at hnone
    obtain ⟨hx, hy, hz⟩ := hnone
    simp only [target, hx, hy, hz]
    rfl

/-- The fields that codes leave to the other words. -/
def kept (s : ModalState α) : α × α × Nat × Point α :=
  (s.feed, s.spindleSpeed, s.tool, s.position)

theorem kept_ofCode (r : Registers α) (block line : Nat) (s : ModalState α) (w : Word α) :
    kept (ofCode r block line s w).finalState = kept s := by
  unfold ofCode
  dsimp only
  split
  · rfl
  · rename_i c _ _
    cases c <;> rfl
  · rfl

theorem kept_ofCodes (r : Registers α) (block line : Nat) (ws : List (Word α)) :
    ∀ s : ModalState α, kept (ofCodes r block line s ws).finalState = kept s := by
  induction ws with
  | nil =>
    intro s
    rfl
  | cons w ws ih =>
    intro s
    rw [ofCodes, finalState_append, ih, kept_ofCode]

/-- **One executed block**, field by field. -/
theorem finalState_ofWords (s : ModalState α) (index : Nat) (b : Block α) :
    (ofWords s index b.line b.words).finalState = after s b := by
  have hget (l : Char) (hl : (Registers.slot? l).isSome = true) :
      (Registers.ofWords b.words).get? l = b.value? l := Registers.get?_ofWords hl b.words
  show (ofAxes _ _ _ (takeOver (Registers.ofWords b.words) (ofCodes (Registers.ofWords b.words)
    index b.line s (b.words.filter fun w => isCodeLetter w.letter)).finalState)).finalState = _
  rw [finalState_ofAxes]
  generalize hr : Registers.ofWords b.words = r at hget ⊢
  generalize hcodes : (ofCodes r index b.line s
    (b.words.filter fun w => isCodeLetter w.letter)).finalState = t
  -- what the codes choose
  have hunit : t.unit = (ModalGroup.unit.last? b.words).getD s.unit := by
    rw [← hcodes, ModalGroup.governs_unit.field_codes]
  have hmode : t.distanceMode = (ModalGroup.distance.last? b.words).getD s.distanceMode := by
    rw [← hcodes, ModalGroup.governs_distance.field_codes]
  have hplane : t.plane = (ModalGroup.plane.last? b.words).getD s.plane := by
    rw [← hcodes, ModalGroup.governs_plane.field_codes]
  have hmotion : t.motionMode = (ModalGroup.motion.last? b.words).getD s.motionMode := by
    rw [← hcodes, ModalGroup.governs_motion.field_codes]
  have hspindle : t.spindleMode = (ModalGroup.spindle.last? b.words).getD s.spindleMode := by
    rw [← hcodes, ModalGroup.governs_spindle.field_codes]
  have hoffset : t.workOffset = (ModalGroup.workOffset.last? b.words).getD s.workOffset := by
    rw [← hcodes, ModalGroup.governs_workOffset.field_codes]
  -- what they leave to the registers
  have hkept : kept t = kept s := by
    rw [← hcodes, kept_ofCodes]
  simp only [kept, Prod.mk.injEq] at hkept
  obtain ⟨hfeed, hspeed, htool, hposition⟩ := hkept
  simp only [takeOver, target, after, hget 'F' (by decide), hget 'S' (by decide),
    hget 'T' (by decide), hget 'X' (by decide), hget 'Y' (by decide), hget 'Z' (by decide),
    hunit, hmode, hplane, hmotion, hspindle, hoffset, hfeed, hspeed, htool, hposition]

/-- **One block** acts on the state if it is executed, and then field by field. -/
theorem finalState_ofBlock (s : ModalState α) (index : Nat) (b : Block α) :
    (ofBlock s index b).finalState = if b.isExecutable then after s b else s := by
  unfold ofBlock Block.hasFaults Block.isExecutable
  cases hfaults : b.faults.isEmpty with
  | false => simp
  | true =>
    cases hwords : b.words.isEmpty with
    | true => simp
    | false => simp [finalState_ofWords]

theorem finalState_ofBlocksFrom (bs : List (Block α)) : ∀ (s : ModalState α) (index : Nat),
    (ofBlocksFrom s index bs).finalState = (bs.filter Block.isExecutable).foldl after s := by
  induction bs with
  | nil =>
    intro s index
    rfl
  | cons b bs ih =>
    intro s index
    rw [ofBlocksFrom, finalState_append, ih, finalState_ofBlock]
    by_cases hb : b.isExecutable = true
    · simp [hb]
    · simp [hb]

/-! ## Histories -/

/-- An executed block, with the unit and the distance mode in force after its own codes. -/
structure Turn (α : Type) where
  unit : LengthUnit
  mode : DistanceMode
  block : Block α

/-- The unit after executed blocks: the last one chosen, or millimetres. -/
def unitAfter (bs : List (Block α)) : LengthUnit :=
  (ModalGroup.unit.last? (bs.flatMap Block.words)).getD .millimetre

/-- The distance mode after executed blocks: the last one chosen, or the absolute one. -/
def modeAfter (bs : List (Block α)) : DistanceMode :=
  (ModalGroup.distance.last? (bs.flatMap Block.words)).getD .absolute

/-- The turns of executed blocks, one for each way to end them early. -/
def turns (bs : List (Block α)) : List (Turn α) :=
  bs.inits.filterMap fun past => past.getLast?.map fun b => ⟨unitAfter past, modeAfter past, b⟩

/-- A coordinate after turns, from the values of its letter. -/
def coordinate (letter : Char) (ts : List (Turn α)) : α :=
  ts.foldl (fun x t => moved t.unit t.mode x (t.block.value? letter)) 0

/-- The state that executed blocks leave, as the product of its histories. -/
def histories (bs : List (Block α)) : ModalState α where
  unit := unitAfter bs
  distanceMode := modeAfter bs
  plane := (ModalGroup.plane.last? (bs.flatMap Block.words)).getD .xy
  feedMode := .unitsPerMinute
  motionMode := (ModalGroup.motion.last? (bs.flatMap Block.words)).getD .rapid
  feed := ((turns bs).filterMap fun t =>
    (t.block.value? 'F').map t.unit.toMillimetres).getLast?.getD ModalState.defaultFeed
  spindleMode := (ModalGroup.spindle.last? (bs.flatMap Block.words)).getD .off
  spindleSpeed := (bs.filterMap fun b => b.value? 'S').getLast?.getD 0
  workOffset := (ModalGroup.workOffset.last? (bs.flatMap Block.words)).getD "G54"
  tool := ((bs.filterMap fun b => b.value? 'T').getLast?.map toolNumber).getD 0
  position := ⟨coordinate 'X' (turns bs), coordinate 'Y' (turns bs), coordinate 'Z' (turns bs)⟩

theorem histories_nil : histories ([] : List (Block α)) = .powerOn := rfl

theorem turns_concat (bs : List (Block α)) (b : Block α) :
    turns (bs ++ [b]) = turns bs ++ [⟨unitAfter (bs ++ [b]), modeAfter (bs ++ [b]), b⟩] := by
  simp [turns, List.inits_append]

theorem last?_concat {β : Type} (g : ModalGroup β) (bs : List (Block α)) (b : Block α) (x : β) :
    (g.last? ((bs ++ [b]).flatMap Block.words)).getD x =
      (g.last? b.words).getD ((g.last? (bs.flatMap Block.words)).getD x) := by
  rw [List.flatMap_append, List.flatMap_singleton, ModalGroup.last?_append]
  cases g.last? b.words <;> rfl

omit [Scalar α] in
/-- The last value of a list to which at most one is added. -/
theorem getLast?_filterMap_concat {γ δ : Type} (f : γ → Option δ) (xs : List γ) (x : γ) :
    ((xs ++ [x]).filterMap f).getLast? = (f x).or (xs.filterMap f).getLast? := by
  cases hx : f x <;> simp [hx]

/-- **One block more** takes every history a step further. -/
theorem histories_concat (bs : List (Block α)) (b : Block α) :
    histories (bs ++ [b]) = after (histories bs) b := by
  have hunit : unitAfter (bs ++ [b]) =
      (ModalGroup.unit.last? b.words).getD (unitAfter bs) := last?_concat _ bs b _
  have hmode : modeAfter (bs ++ [b]) =
      (ModalGroup.distance.last? b.words).getD (modeAfter bs) := last?_concat _ bs b _
  unfold histories after
  simp only [turns_concat, hunit, hmode, last?_concat, getLast?_filterMap_concat, coordinate,
    List.foldl_append, List.foldl_cons, List.foldl_nil]
  congr 1
  · cases b.value? 'F' <;> rfl
  · cases b.value? 'S' <;> rfl
  · cases b.value? 'T' <;> rfl

/-- Executed blocks leave their histories. -/
theorem foldl_after (bs : List (Block α)) : bs.foldl after .powerOn = histories bs := by
  induction bs using List.reverseRecOn with
  | nil => exact histories_nil.symm
  | append_singleton bs b ih =>
    rw [List.foldl_append, ih, histories_concat]
    rfl

/-! ## Words without a history -/

end Interpretation

/-- The word chooses nothing in any group and no history reads its letter. -/
def Word.isIdle (w : Word α) : Bool :=
  !(['F', 'S', 'T', 'X', 'Y', 'Z'].contains w.letter) &&
  (ModalGroup.motion.ofWord? w).isNone && (ModalGroup.plane.ofWord? w).isNone &&
  (ModalGroup.unit.ofWord? w).isNone && (ModalGroup.distance.ofWord? w).isNone &&
  (ModalGroup.spindle.ofWord? w).isNone && (ModalGroup.workOffset.ofWord? w).isNone

/-- The block without its idle words. -/
def Block.withoutIdle (b : Block α) : Block α :=
  { b with words := b.words.filter fun w => !w.isIdle }

theorem Block.value?_withoutIdle (b : Block α) {l : Char}
    (hl : l ∈ ['F', 'S', 'T', 'X', 'Y', 'Z']) : b.withoutIdle.value? l = b.value? l := by
  unfold value? withoutIdle
  rw [List.find?_filter]
  congr 2
  funext w
  by_cases hw : w.letter = l
  · have hbusy : w.isIdle = false := by
      unfold Word.isIdle
      rw [hw, List.contains_iff_mem.2 hl]
      rfl
    simp [hbusy, hw]
  · simp [hw]

namespace Interpretation

/-- Idle words leave no trace in the state. -/
theorem after_withoutIdle (s : ModalState α) (b : Block α) :
    after s b.withoutIdle = after s b := by
  have hlast {β : Type} (g : ModalGroup β)
      (hg : ∀ w : Word α, w.isIdle = true → g.ofWord? w = none) :
      g.last? b.withoutIdle.words = g.last? b.words := by
    apply ModalGroup.last?_filter
    intro w hw
    rw [Bool.not_eq_false'] at hw
    exact hg w hw
  have hidle (w : Word α) (hw : w.isIdle = true) :
      ModalGroup.motion.ofWord? w = none ∧ ModalGroup.plane.ofWord? w = none ∧
      ModalGroup.unit.ofWord? w = none ∧ ModalGroup.distance.ofWord? w = none ∧
      ModalGroup.spindle.ofWord? w = none ∧ ModalGroup.workOffset.ofWord? w = none := by
    simp only [Word.isIdle, Bool.and_eq_true, Option.isNone_iff_eq_none] at hw
    tauto
  unfold after
  rw [hlast ModalGroup.motion fun w hw => (hidle w hw).1,
    hlast ModalGroup.plane fun w hw => (hidle w hw).2.1,
    hlast ModalGroup.unit fun w hw => (hidle w hw).2.2.1,
    hlast ModalGroup.distance fun w hw => (hidle w hw).2.2.2.1,
    hlast ModalGroup.spindle fun w hw => (hidle w hw).2.2.2.2.1,
    hlast ModalGroup.workOffset fun w hw => (hidle w hw).2.2.2.2.2,
    b.value?_withoutIdle (by decide : 'F' ∈ _), b.value?_withoutIdle (by decide : 'S' ∈ _),
    b.value?_withoutIdle (by decide : 'T' ∈ _), b.value?_withoutIdle (by decide : 'X' ∈ _),
    b.value?_withoutIdle (by decide : 'Y' ∈ _), b.value?_withoutIdle (by decide : 'Z' ∈ _)]

theorem after_of_words_eq_nil (s : ModalState α) {b : Block α} (hb : b.words = []) :
    after s b = s := by
  have hvalue (l : Char) : b.value? l = none := by
    simp [Block.value?, hb]
  unfold after
  simp only [hb, hvalue]
  cases s
  rfl

theorem finalState_ofBlock_withoutIdle (s : ModalState α) (index : Nat) (b : Block α) :
    (ofBlock s index b.withoutIdle).finalState = (ofBlock s index b).finalState := by
  rw [finalState_ofBlock, finalState_ofBlock, after_withoutIdle]
  by_cases hb : b.isExecutable = true
  · by_cases hrest : b.withoutIdle.isExecutable = true
    · rw [if_pos hb, if_pos hrest]
    · -- all words were idle
      rw [if_pos hb, if_neg hrest, ← after_withoutIdle]
      have hempty : b.withoutIdle.words = [] := by
        simp only [Block.isExecutable, Bool.and_eq_true] at hb hrest
        have hfaults : b.withoutIdle.faults.isEmpty = true := hb.2
        simpa [hfaults] using hrest
      rw [after_of_words_eq_nil s hempty]
  · rw [if_neg hb, if_neg]
    intro hrest
    apply hb
    simp only [Block.isExecutable, Bool.and_eq_true, Bool.not_eq_true'] at hrest ⊢
    obtain ⟨hwords, hfaults⟩ := hrest
    refine ⟨?_, hfaults⟩
    cases hnil : b.words with
    | nil => simp [Block.withoutIdle, hnil] at hwords
    | cons w ws => rfl

theorem finalState_ofBlocksFrom_withoutIdle (bs : List (Block α)) :
    ∀ (s : ModalState α) (index : Nat),
      (ofBlocksFrom s index (bs.map Block.withoutIdle)).finalState =
        (ofBlocksFrom s index bs).finalState := by
  induction bs with
  | nil =>
    intro s index
    rfl
  | cons b bs ih =>
    intro s index
    rw [List.map_cons, ofBlocksFrom, ofBlocksFrom, finalState_append, finalState_append,
      finalState_ofBlock_withoutIdle, ih]

/-- **A program ends in the product of its histories.**  Take the blocks that are executed.  Motion
mode, plane, unit, distance mode, spindle mode and work offset are the last choice of their own
group among all their words, or as at power-on.  Spindle speed and tool come from the first value
of their letter in the last block that has one.  The feed is the first value of its letter in the
last block that has one, in the unit in force after that block's own codes.  Each coordinate is
computed from its own letter, the units and the distance modes block by block.  Words that take
part in none of this can be deleted from every block without a change of the state. -/
theorem finalState_eq_histories (bs : List (Block α)) :
    (ofBlocks bs).finalState = histories (bs.filter Block.isExecutable) ∧
    (ofBlocks (bs.map Block.withoutIdle)).finalState = (ofBlocks bs).finalState := by
  constructor
  · unfold ofBlocks
    rw [finalState_ofBlocksFrom, foldl_after]
  · exact finalState_ofBlocksFrom_withoutIdle bs .powerOn 0

end Interpretation

end Machining
