import Machining.Proofs.Program.Compact
import Machining.Proofs.Program.Grammar
import Machining.Proofs.Double.Numeral
import Machining.Modal.Code

/-!
# The lines that are accepted

A line gives a block without faults exactly if its compact text is a sequence of words, and then the
block has these words.

* `Block.faults_ofLine_eq_nil_iff` — no fault is found exactly in a sequence of words;
* `Block.words_ofLine` — the words of the block are those of the sequence;
* `Block.ofLine_accepts` — both at once, with the sequence unique and every value defined.
-/

set_option autoImplicit false

namespace Machining

/-- A number of a program is never undefined. -/
theorem NumberText.isNaN_value (n : NumberText) : (n.value : Float).isNaN = false := by
  have hmagnitude : (n.magnitude.value : Float).isNaN = false := Double.isNaN_ofScientific _ _
  unfold NumberText.value
  split
  · exact (Double.isNaN_neg _).trans hmagnitude
  · exact hmagnitude

/-- The letter of a word has a slot of its own. -/
theorem WordSpelling.isSome_slot? (w : WordSpelling) :
    (Registers.slot? w.letter).isSome = true := by
  have hletter := w.isLetter_letter
  simp only [Word.isLetter, Bool.and_eq_true, decide_eq_true_eq] at hletter
  simp [Registers.slot?, hletter]

namespace Block

variable {α : Type} [Scalar α]

theorem faultsOfWord_eq_nil_iff (gap : List Char) (w : WordText) :
    faultsOfWord (α := α) gap w = [] ↔
      gap = [] ∧ (Word.ofText? w : Option (Word α)).isSome = true := by
  unfold faultsOfWord
  cases gap <;> cases (Word.ofText? w : Option (Word α)) <;> simp

/-- A cut has no faults if it has no gaps, no tail and a value for each of its words. -/
theorem faultsOfCut_eq_nil_iff (c : Cut) : faultsOfCut (α := α) c = [] ↔
    (∀ p ∈ c.words, p.1 = [] ∧ (Word.ofText? p.2 : Option (Word α)).isSome = true) ∧
      c.tail = [] := by
  simp only [faultsOfCut, List.append_eq_nil_iff, List.flatMap_eq_nil_iff,
    faultsOfWord_eq_nil_iff]
  cases c.tail <;> simp

theorem wordsOfCut_spelled (ws : List WordSpelling) :
    wordsOfCut (α := α) ⟨ws.map fun w => ([], w.toText), []⟩ = ws.map WordSpelling.word := by
  simp only [wordsOfCut, List.filterMap_map]
  exact List.filterMap_eq_map' ▸ List.filterMap_congr fun w _ => w.ofText?_toText

variable {raw : String} {line : Nat} {ws : List WordSpelling}

theorem words_eq (raw : String) (line : Nat) : (ofLine raw line : Block α).words =
    wordsOfCut (Word.cut (Program.compact raw.toList)) := by
  rw [← Program.squeeze_clean]
  rfl

theorem faults_eq (raw : String) (line : Nat) : (ofLine raw line : Block α).faults =
    faultsOfCut (α := α) (Word.cut (Program.compact raw.toList)) := by
  rw [← Program.squeeze_clean]
  rfl

/-- A sequence of words is read as these words. -/
theorem words_ofLine (h : ws.flatMap WordSpelling.toList = Program.compact raw.toList) :
    (ofLine raw line : Block α).words = ws.map WordSpelling.word := by
  rw [words_eq, ← h, WordSpelling.cut_flatMap, wordsOfCut_spelled]

/-- **No fault is found exactly in a sequence of words.** -/
theorem faults_ofLine_eq_nil_iff : (ofLine raw line : Block α).faults = [] ↔
    ∃ ws : List WordSpelling, ws.flatMap WordSpelling.toList = Program.compact raw.toList := by
  rw [faults_eq, faultsOfCut_eq_nil_iff]
  constructor
  · rintro ⟨hwords, htail⟩
    exact WordSpelling.exists_of_cut htail hwords
  · rintro ⟨ws, h⟩
    rw [← h, WordSpelling.cut_flatMap]
    refine ⟨fun p hp => ?_, rfl⟩
    obtain ⟨w, -, rfl⟩ := List.mem_map.1 hp
    exact ⟨rfl, by simp [WordSpelling.ofText?_toText]⟩

/-- **A block accepts exactly the sequences of words.**  The sequence is unique, the words of the
block are just the words of the sequence with their values, no value is undefined and every letter
has a slot. -/
theorem ofLine_accepts (raw : String) (line : Nat) :
    ((ofLine raw line : Block Float).faults = [] ↔
      ∃ ws : List WordSpelling, ws.flatMap WordSpelling.toList = Program.compact raw.toList) ∧
    ∀ ws : List WordSpelling, ws.flatMap WordSpelling.toList = Program.compact raw.toList →
      (∀ vs : List WordSpelling,
        vs.flatMap WordSpelling.toList = Program.compact raw.toList → vs = ws) ∧
      (ofLine raw line : Block Float).words = ws.map WordSpelling.word ∧
      ∀ w ∈ (ofLine raw line : Block Float).words,
        w.value.isNaN = false ∧ (Registers.slot? w.letter).isSome = true := by
  refine ⟨faults_ofLine_eq_nil_iff, fun ws h => ⟨fun vs hvs => ?_, words_ofLine h, ?_⟩⟩
  · exact WordSpelling.flatMap_toList_injective (hvs.trans h.symm)
  · rw [words_ofLine h]
    intro w hw
    obtain ⟨s, -, rfl⟩ := List.mem_map.1 hw
    exact ⟨s.number.isNaN_value, s.isSome_slot?⟩

/-- Three words with a comment between them, in small letters. -/
theorem ofLine_accepts_threeWords :
    (ofLine "g1 x-1.5 (slow) y.25 ; end" 7 : Block Float).faults = [] ∧
      (ofLine "g1 x-1.5 (slow) y.25 ; end" 7 : Block Float).words =
        [⟨'G', 1.0⟩, ⟨'X', -1.5⟩, ⟨'Y', 0.25⟩] := by
  obtain ⟨hfaults, hwords⟩ := ofLine_accepts "g1 x-1.5 (slow) y.25 ; end" 7
  let one : DecimalText :=
    ⟨['1'], none, List.all_eq_true.1 rfl, List.all_eq_true.1 rfl, by simp⟩
  let oneAndHalf : DecimalText :=
    ⟨['1'], some ['5'], List.all_eq_true.1 rfl, List.all_eq_true.1 rfl, by simp⟩
  let quarter : DecimalText :=
    ⟨[], some ['2', '5'], List.all_eq_true.1 rfl, List.all_eq_true.1 rfl, by simp⟩
  let g : WordSpelling := ⟨'G', ⟨.absent, one⟩, rfl⟩
  let x : WordSpelling := ⟨'X', ⟨.minus, oneAndHalf⟩, rfl⟩
  let y : WordSpelling := ⟨'Y', ⟨.absent, quarter⟩, rfl⟩
  have hspelled : [g, x, y].flatMap WordSpelling.toList =
      Program.compact "g1 x-1.5 (slow) y.25 ; end".toList := by decide +kernel
  have hvalues : [g, x, y].map WordSpelling.word =
      [(⟨'G', 1.0⟩ : Word Float), ⟨'X', -1.5⟩, ⟨'Y', 0.25⟩] := by decide +kernel
  exact ⟨hfaults.2 ⟨_, hspelled⟩, (hwords _ hspelled).2.1.trans hvalues⟩

end Block

end Machining
