import Machining.Proofs.Modal.Accounting
import Machining.Proofs.Modal.Histories

/-!
# Invariants of the modal state

What every executed block keeps of the state holds wherever the program moves the axes, since a
move shows the state its block leaves.  The choice in force in a modal group is of this kind: it
stays among some choices for as long as no executed block makes another one.

* `move_of_mem_ofBlock` — the move of one block;
* `exists_state_of_move` — what all executed blocks keep holds of the state behind each move;
* `ModalGroup.Tracks`, `ModalGroup.Tracks.keeps` — a field of the state that shows a group.
-/

set_option autoImplicit false

namespace Machining

variable {α : Type} [Scalar α]

namespace Interpretation

/-- **A move shows the state its block leaves**, and the block is executed. -/
theorem move_of_mem_ofBlock {s : ModalState α} {i : Nat} {b : Block α} {x : Motion α}
    (hx : .motion x ∈ (ofBlock s i b).commands) :
    b.isExecutable = true ∧ x = Motion.between s (after s b) i b := by
  by_cases hb : b.isExecutable = true
  · rw [ofBlock_of_isExecutable s i hb, commands_ofWords, finalState_ofWords] at hx
    refine ⟨hb, ?_⟩
    by_cases haxis : b.namesAxis = true
    · simpa [haxis] using hx
    · simp [haxis] at hx
  · rw [Bool.not_eq_true] at hb
    rw [(ofBlock_of_not_isExecutable s i hb).1] at hx
    cases hx

variable {Q : ModalState α → Prop} {bs : List (Block α)}

/-- What an executed block keeps, every block keeps. -/
theorem keeps_ofBlock {b : Block α} {s : ModalState α}
    (hkeep : b.isExecutable = true → Q s → Q (after s b)) (i : Nat) (hs : Q s) :
    Q (ofBlock s i b).finalState := by
  rw [finalState_ofBlock]
  split
  · rename_i hb
    exact hkeep hb hs
  · exact hs

/-- **What every executed block keeps** holds of the state behind each move. -/
theorem exists_state_of_move
    (hkeep : ∀ b ∈ bs, b.isExecutable = true → ∀ s, Q s → Q (after s b)) :
    ∀ (s : ModalState α) (i : Nat), Q s → ∀ x, .motion x ∈ (ofBlocksFrom s i bs).commands →
      ∃ t, Q t ∧ x.mode = t.motionMode ∧ x.spindleMode = t.spindleMode := by
  induction bs with
  | nil =>
    intro s i _ x hx
    cases hx
  | cons b bs ih =>
    intro s i hs x hx
    obtain ⟨hfirst, hrest⟩ := List.forall_mem_cons.1 hkeep
    rcases List.mem_append.1 hx with hx | hx
    · obtain ⟨hb, rfl⟩ := move_of_mem_ofBlock hx
      exact ⟨after s b, hfirst hb s hs, rfl, rfl⟩
    · exact ih hrest _ (i + 1) (keeps_ofBlock (fun hb => hfirst hb s) i hs) x hx

end Interpretation

/-! ## Choices in force -/

namespace ModalGroup

variable {β : Type} {g : ModalGroup β} {field : ModalState α → β}

/-- The field shows the last choice an executed block makes in the group, or what it showed. -/
def Tracks (g : ModalGroup β) (field : ModalState α → β) : Prop :=
  ∀ s b, field (Interpretation.after s b) = (g.last? b.words).getD (field s)

theorem tracks_motion : motion.Tracks (ModalState.motionMode (α := α)) := fun _ _ => rfl

theorem tracks_spindle : spindle.Tracks (ModalState.spindleMode (α := α)) := fun _ _ => rfl

theorem exists_word_of_last? {ws : List (Word α)} {x : β} (h : g.last? ws = some x) :
    ∃ w ∈ ws, g.ofWord? w = some x :=
  List.mem_filterMap.1 (List.mem_of_getLast? h)

/-- A group of which no code occurs chooses nothing. -/
theorem last?_eq_none {ws : List (Word α)}
    (h : ∀ w ∈ ws, w.letter = g.letter → Scalar.truncate w.value ∉ g.choices.map Prod.fst) :
    g.last? ws = none := by
  cases hlast : g.last? ws with
  | none => rfl
  | some x =>
    obtain ⟨w, hw, hx⟩ := exists_word_of_last? hlast
    obtain ⟨hletter, hmem⟩ := mem_of_choice? hx
    exact absurd (List.mem_map_of_mem hmem) (h w hw hletter)

/-- **A choice stays in force** among the choices that the words of a block can make. -/
theorem Tracks.keeps (h : g.Tracks field) {P : β → Prop} {b : Block α}
    (hwords : ∀ w ∈ b.words, ∀ x, g.ofWord? w = some x → P x) {s : ModalState α}
    (hs : P (field s)) : P (field (Interpretation.after s b)) := by
  rw [h]
  cases hlast : g.last? b.words with
  | none => exact hs
  | some x =>
    obtain ⟨w, hw, hx⟩ := exists_word_of_last? hlast
    exact hwords w hw x hx

end ModalGroup

end Machining
