import Mathlib.Data.List.Forall2
import Machining.Proofs.Modal.Prefix
import Machining.Proofs.Modal.Registers
import Machining.Scalar.Double

/-!
# The order of words

A block applies its codes in the order in which they stand and looks everything else up in its
registers, which hold the first value of each letter.  So where the other words stand among the
codes, what follows the first word of a letter, and what words with other letters there are, leaves
no trace: not in the tool a tool change asks for, nor in the unit the feed and the axes are read in.

* `Registers.Agree` — the same values for all letters that are looked up;
* `ofWords_of_agree` — the phases of a block see codes and agreeing registers, and nothing else;
* `Block.Agrees`, `ofBlocksFrom_of_agrees` — programs whose blocks agree one by one;
* `ofBlock_orderFree` — one block, with all that has to be equal spelled out.
-/

set_option autoImplicit false

namespace Machining

variable {α : Type}

/-! ## Registers that are looked up -/

/-- The letters whose registers a block looks up. -/
def registerLetters : List Char := ['F', 'S', 'T', 'X', 'Y', 'Z', 'I', 'J', 'K']

namespace Registers

/-- The registers hold the same values for all letters that are looked up. -/
def Agree (r q : Registers α) : Prop := ∀ l ∈ registerLetters, r.get? l = q.get? l

variable {r q : Registers α}

theorem Agree.hasAny (h : Agree r q) {ls : List Char} (hls : ls ⊆ registerLetters) :
    r.hasAny ls = q.hasAny ls :=
  hasAny_congr fun l hl => h l (hls hl)

/-- Words with the same first values fill registers that agree. -/
theorem agree_ofWords {ws vs : List (Word α)} (h : ∀ l ∈ registerLetters,
    (ws.find? fun w => w.letter == l).map Word.value =
      (vs.find? fun w => w.letter == l).map Word.value) : Agree (ofWords ws) (ofWords vs) := by
  intro l hl
  have hslots : (registerLetters.all fun l => (slot? l).isSome) = true := rfl
  have hslot : (slot? l).isSome = true := List.all_eq_true.1 hslots l hl
  rw [get?_ofWords hslot, get?_ofWords hslot, h l hl]

end Registers

/-! ## The phases of a block -/

namespace Interpretation

variable [Scalar α]

theorem arcOffset_congr {r q : Registers α} (h : ∀ l ∈ ['I', 'J', 'K'], r.get? l = q.get? l)
    (u : LengthUnit) : arcOffset r u = arcOffset q u := by
  unfold arcOffset
  rw [Registers.hasAny_congr h, h 'I' (by decide), h 'J' (by decide), h 'K' (by decide)]

section Phases

variable {r q : Registers α} (h : r.Agree q) (block line : Nat)

include h

/-- A tool change asks for the same tool. -/
theorem requestedTool_of_agree (s : ModalState α) : requestedTool s r = requestedTool s q := by
  unfold requestedTool
  rw [h 'T' (by decide)]

theorem ofCode_of_agree (s : ModalState α) (w : Word α) :
    ofCode r block line s w = ofCode q block line s w := by
  unfold ofCode
  rw [requestedTool_of_agree h]

theorem ofCodes_of_agree (ws : List (Word α)) : ∀ s : ModalState α,
    ofCodes r block line s ws = ofCodes q block line s ws := by
  induction ws with
  | nil => exact fun _ => rfl
  | cons w ws ih =>
    intro s
    rw [ofCodes, ofCodes, ofCode_of_agree h, ih]

theorem takeOver_of_agree (s : ModalState α) : takeOver r s = takeOver q s := by
  unfold takeOver
  rw [h 'F' (by decide), h 'S' (by decide), h 'T' (by decide)]

theorem target_of_agree (s : ModalState α) : target r s = target q s := by
  unfold target
  rw [h 'X' (by decide), h 'Y' (by decide), h 'Z' (by decide)]

theorem ofAxes_of_agree (s : ModalState α) : ofAxes r block line s = ofAxes q block line s := by
  unfold ofAxes
  have hcentre : ['I', 'J', 'K'] ⊆ registerLetters := by decide
  rw [h.hasAny (by decide), target_of_agree h, arcOffset_congr fun l hl => h l (hcentre hl)]

end Phases

/-- **The words of a block**: the codes in order and agreeing registers yield the same. -/
theorem ofWords_of_agree (s : ModalState α) (block line : Nat) {ws vs : List (Word α)}
    (hcodes : (ws.filter fun w => isCodeLetter w.letter) =
      vs.filter fun w => isCodeLetter w.letter)
    (h : (Registers.ofWords ws).Agree (Registers.ofWords vs)) :
    ofWords s block line ws = ofWords s block line vs := by
  unfold ofWords
  dsimp only
  rw [hcodes, ofCodes_of_agree h, takeOver_of_agree h, ofAxes_of_agree h]

end Interpretation

/-! ## Blocks and programs -/

/-- The blocks have the same line, faults, codes in order and first values of the letters that are
looked up, and both have words or neither. -/
structure Block.Agrees (b c : Block α) : Prop where
  line_eq : b.line = c.line
  faults_eq : b.faults = c.faults
  words_eq_nil_iff : b.words = [] ↔ c.words = []
  codes_eq : (b.words.filter fun w => isCodeLetter w.letter) =
    c.words.filter fun w => isCodeLetter w.letter
  value?_eq : ∀ l ∈ registerLetters, b.value? l = c.value? l

namespace Interpretation

variable [Scalar α]

/-- **Blocks that agree** yield the same from every state. -/
theorem ofBlock_of_agrees (s : ModalState α) (index : Nat) {b c : Block α} (h : b.Agrees c) :
    ofBlock s index b = ofBlock s index c := by
  have hempty : b.words.isEmpty = c.words.isEmpty := by
    rw [Bool.eq_iff_iff, List.isEmpty_iff, List.isEmpty_iff, h.words_eq_nil_iff]
  unfold ofBlock Block.hasFaults
  rw [h.faults_eq, h.line_eq, hempty,
    ofWords_of_agree s index c.line h.codes_eq (Registers.agree_ofWords h.value?_eq)]

/-- **Programs whose blocks agree one by one** are interpreted alike. -/
theorem ofBlocksFrom_of_agrees {bs cs : List (Block α)} (h : List.Forall₂ Block.Agrees bs cs) :
    ∀ (s : ModalState α) (index : Nat), ofBlocksFrom s index bs = ofBlocksFrom s index cs := by
  induction h with
  | nil => exact fun _ _ => rfl
  | cons hfirst _ ih =>
    intro s index
    rw [ofBlocksFrom, ofBlocksFrom, ofBlock_of_agrees s index hfirst, ih]

/-- **Only the order of the codes matters** inside a block.  From every state and at every index two
executed blocks of one line leave the same state and yield the same commands and diagnostics, if
their G and M words are the same in the same order and the first values of the letters F, S, T, X,
Y, Z, I, J and K are the same; wherever the other words stand and whatever else there is. -/
theorem ofBlock_orderFree (s : ModalState α) (index : Nat) (b c : Block α)
    (hb : b.faults = [] ∧ b.words ≠ []) (hc : c.faults = [] ∧ c.words ≠ [])
    (hline : b.line = c.line)
    (hcodes : (b.words.filter fun w => w.letter = 'G' ∨ w.letter = 'M') =
      c.words.filter fun w => w.letter = 'G' ∨ w.letter = 'M')
    (hvalues : ∀ l ∈ ['F', 'S', 'T', 'X', 'Y', 'Z', 'I', 'J', 'K'], b.value? l = c.value? l) :
    ofBlock s index b = ofBlock s index c := by
  have hletters : (fun w : Word α => decide (w.letter = 'G' ∨ w.letter = 'M')) =
      fun w => isCodeLetter w.letter := by
    funext w
    rw [Bool.eq_iff_iff]
    simp [isCodeLetter]
  rw [hletters] at hcodes
  exact ofBlock_of_agrees s index
    ⟨hline, hb.1.trans hc.1.symm, iff_of_false hb.2 hc.2, hcodes, hvalues⟩

/-- A block and its words in another order, with the tool number before the tool change instead of
after it, the unit chosen after the axis word, a second X word and a word number. -/
theorem ofBlock_orderFree_shuffled :
    let b : Block Float := .ofLine "G1 G20 M6 T2 F5 X10 I.5" 3
    let c : Block Float := .ofLine "N40 T2 X10 G1 X99 F5 G20 F7 I.5 M6" 3
    (b.faults = [] ∧ b.words ≠ []) ∧ (c.faults = [] ∧ c.words ≠ []) ∧ b.line = c.line ∧
    (b.words.filter fun w => w.letter = 'G' ∨ w.letter = 'M') =
      (c.words.filter fun w => w.letter = 'G' ∨ w.letter = 'M') ∧
    (∀ l ∈ ['F', 'S', 'T', 'X', 'Y', 'Z', 'I', 'J', 'K'], b.value? l = c.value? l) ∧
    ofBlock .powerOn 0 b = ofBlock .powerOn 0 c := by
  intro b c
  have hb : b.words = [⟨'G', 1.0⟩, ⟨'G', 20.0⟩, ⟨'M', 6.0⟩, ⟨'T', 2.0⟩, ⟨'F', 5.0⟩, ⟨'X', 10.0⟩,
      ⟨'I', 0.5⟩] := by decide +kernel
  have hc : c.words = [⟨'N', 40.0⟩, ⟨'T', 2.0⟩, ⟨'X', 10.0⟩, ⟨'G', 1.0⟩, ⟨'X', 99.0⟩, ⟨'F', 5.0⟩,
      ⟨'G', 20.0⟩, ⟨'F', 7.0⟩, ⟨'I', 0.5⟩, ⟨'M', 6.0⟩] := by decide +kernel
  have hbrun : b.faults = [] ∧ b.words ≠ [] := ⟨by decide +kernel, by simp [hb]⟩
  have hcrun : c.faults = [] ∧ c.words ≠ [] := ⟨by decide +kernel, by simp [hc]⟩
  have hcodes : (b.words.filter fun w => w.letter = 'G' ∨ w.letter = 'M') =
      c.words.filter fun w => w.letter = 'G' ∨ w.letter = 'M' := by simp [hb, hc]
  have hvalues : ∀ l ∈ ['F', 'S', 'T', 'X', 'Y', 'Z', 'I', 'J', 'K'],
      b.value? l = c.value? l := by simp [Block.value?, hb, hc]
  exact ⟨hbrun, hcrun, rfl, hcodes, hvalues,
    ofBlock_orderFree .powerOn 0 b c hbrun hcrun rfl hcodes hvalues⟩

end Interpretation

end Machining
