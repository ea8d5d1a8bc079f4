import Machining.Proofs.Modal.Accounting
import Machining.Proofs.Program.Accepted
import Machining.Proofs.Program.Scan

/-!
# What becomes of a line

Every character of a compact text goes into a word, a gap or the tail.  A word with a readable
number is a word of the block; a gap, a number that is not readable and the tail are reported, from
left to right.  So a line with anything on it gives words or faults, and when its block is executed
a command or a diagnostic.

* `Block.messages_ofCut` — the reports of a cut;
* `Block.ofText?_eq_some_iff` — which words of a cut are readable, and as what;
* `Block.isEmpty_ofLine_iff`, `Interpretation.ofBlock_silent_iff` — an empty block has an empty
  cleaned line, and no other block goes unnoticed;
* `Block.ofLine_tokens` — all of this for a line.
-/

set_option autoImplicit false

namespace Machining

variable {α : Type} [Scalar α]

/-- **Only an empty block leaves no trace.** -/
theorem Interpretation.ofBlock_silent_iff (s : ModalState α) (index : ℕ) (b : Block α) :
    ((ofBlock s index b).commands = [] ∧ (ofBlock s index b).diagnostics = []) ↔
      b.isEmpty = true := by
  simp only [Block.isEmpty, Bool.and_eq_true, List.isEmpty_iff]
  by_cases hfaults : b.faults = []
  · by_cases hwords : b.words = []
    · simp [ofBlock_of_empty s index hwords hfaults, hwords, hfaults, start]
    · have hrun : b.isExecutable = true := by simp [Block.isExecutable, hwords, hfaults]
      simp [ofBlock_of_isExecutable s index hrun, commands_ofWords, hwords]
  · simp [ofBlock_of_faults s index hfaults, hfaults]

namespace Block

/-- The report of a word and the gap before it. -/
theorem messages_ofWord (gap : List Char) (w : WordText) :
    (faultsOfWord (α := α) gap w).map BlockFault.message =
      (if gap = [] then [] else ["Unexpected token near '" ++ String.ofList gap ++ "'"]) ++
      (if (Word.ofText? w : Option (Word α)).isSome = true then []
        else ["Invalid number '" ++ String.ofList w.number ++ "'"]) := by
  unfold faultsOfWord
  simp only [List.map_append, List.isEmpty_iff]
  congr 1
  · split
    · rfl
    · rfl
  · cases (Word.ofText? w : Option (Word α)) with
    | none => rfl
    | some _ => rfl

/-- **The reports of a cut**, from left to right. -/
theorem messages_ofCut (c : Cut) : (faultsOfCut (α := α) c).map BlockFault.message =
    (c.words.flatMap fun p =>
      (if p.1 = [] then [] else ["Unexpected token near '" ++ String.ofList p.1 ++ "'"]) ++
      (if (Word.ofText? p.2 : Option (Word α)).isSome = true then []
        else ["Invalid number '" ++ String.ofList p.2.number ++ "'"])) ++
    (if c.tail = [] then [] else ["Cannot parse tail '" ++ String.ofList c.tail ++ "'"]) := by
  unfold faultsOfCut
  simp only [List.map_append, List.map_flatMap, List.isEmpty_iff, messages_ofWord]
  congr 1
  split
  · rfl
  · rfl

/-- **A word of a cut is readable** if its number is spelled with ASCII digits. -/
theorem ofText?_eq_some_iff {cs : List Char} {p : List Char × WordText}
    (hp : p ∈ (Word.cut cs).words) (w : Word α) :
    Word.ofText? p.2 = some w ↔ ∃ s : WordSpelling, s.toText = p.2 ∧ s.word = w := by
  constructor
  · intro h
    obtain ⟨cs', rest, hsplit⟩ :=
      Word.exists_split?_of_mem_cut cs p.2 (List.mem_map.2 ⟨p, hp, rfl⟩)
    obtain ⟨s, hs⟩ := Word.exists_wordSpelling (α := α) hsplit (by rw [h]; rfl)
    refine ⟨s, hs, ?_⟩
    rw [← hs, WordSpelling.ofText?_toText] at h
    exact Option.some.inj h
  · rintro ⟨s, hs, rfl⟩
    rw [← hs, WordSpelling.ofText?_toText]

/-- **A block is empty if its cleaned line is**, and only then. -/
theorem isEmpty_ofLine_iff {raw : String} {line : ℕ} :
    (ofLine raw line : Block α).isEmpty = true ↔ (ofLine raw line : Block α).cleaned = "" := by
  have hcleaned : (ofLine raw line : Block α).cleaned = "" ↔ Program.compact raw.toList = [] := by
    rw [Program.compact_eq_nil_iff]
    exact String.ofList_eq_empty_iff
  rw [hcleaned]
  simp only [isEmpty, Bool.and_eq_true, List.isEmpty_iff]
  constructor
  · rintro ⟨hwords, hfaults⟩
    obtain ⟨ws, hws⟩ := faults_ofLine_eq_nil_iff.1 hfaults
    rw [words_ofLine hws, List.map_eq_nil_iff] at hwords
    rw [← hws, hwords]
    rfl
  · intro h
    have hspelled : ([] : List WordSpelling).flatMap WordSpelling.toList =
        Program.compact raw.toList := h.symm
    exact ⟨words_ofLine hspelled, faults_ofLine_eq_nil_iff.2 ⟨[], hspelled⟩⟩

/-- **Cutting a line at its words loses nothing** and reports everything it passes over.  The
compact text is made of gaps, words and a tail, where the words are the matches of the scan for
words, and nothing that is passed over contains a text of their form.  The block has the readable
words; its reports are about the gaps, the numbers that are not readable and the tail.  It is empty
if its cleaned line is, and any other block yields a command or a diagnostic. -/
theorem ofLine_tokens (raw : String) (line : ℕ) :
    (∃ (words : List (List Char × WordText)) (tail : List Char),
      Pattern.Scan Word.wordPattern (Program.compact raw.toList)
        (words.map fun p => (p.1, p.2.toList)) tail ∧
      Program.compact raw.toList = words.flatMap (fun p => p.1 ++ p.2.toList) ++ tail ∧
      (∀ p ∈ words, Word.HasForm p.2.toList) ∧
      (∀ g ∈ tail :: words.map Prod.fst, ∀ m, m <:+: g → ¬ Word.HasForm m) ∧
      (ofLine raw line : Block α).words = words.filterMap (fun p => Word.ofText? p.2) ∧
      (∀ p ∈ words, ∀ w : Word α,
        Word.ofText? p.2 = some w ↔ ∃ s : WordSpelling, s.toText = p.2 ∧ s.word = w) ∧
      (ofLine raw line : Block α).faults.map BlockFault.message =
        (words.flatMap fun p =>
          (if p.1 = [] then [] else ["Unexpected token near '" ++ String.ofList p.1 ++ "'"]) ++
          (if (Word.ofText? p.2 : Option (Word α)).isSome = true then []
            else ["Invalid number '" ++ String.ofList p.2.number ++ "'"])) ++
        (if tail = [] then [] else ["Cannot parse tail '" ++ String.ofList tail ++ "'"])) ∧
    ((ofLine raw line : Block α).isEmpty = true ↔ (ofLine raw line : Block α).cleaned = "") ∧
    ∀ (s : ModalState α) (index : ℕ),
      ((Interpretation.ofBlock s index (ofLine raw line)).commands = [] ∧
        (Interpretation.ofBlock s index (ofLine raw line)).diagnostics = []) ↔
      (ofLine raw line : Block α).cleaned = "" := by
  have hscan := Word.scan_cut (Program.compact raw.toList)
  refine ⟨⟨_, _, hscan, ?_, ?_, ?_, words_eq raw line, fun p hp => ofText?_eq_some_iff hp, ?_⟩,
    isEmpty_ofLine_iff, fun s index => ?_⟩
  · simpa only [List.flatMap_map] using hscan.eq_append
  · intro p hp
    rw [← Word.matches_wordPattern_iff]
    exact hscan.matches_of_mem _ (List.mem_map_of_mem hp)
  · intro g hg m hm
    rw [← Word.matches_wordPattern_iff]
    refine hscan.not_matches ?_ g ?_ m hm
    · rw [Word.matches_wordPattern_iff]
      exact Word.not_hasForm_nil
    · rwa [List.map_map]
  · rw [faults_eq, messages_ofCut]
  · rw [Interpretation.ofBlock_silent_iff, isEmpty_ofLine_iff]

end Block

end Machining
