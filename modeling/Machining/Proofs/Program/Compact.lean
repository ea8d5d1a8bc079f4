import Mathlib
import Machining.Program.Block

/-!
# Compact lines

A line is cut at its words only when its comments are gone, its letters are capitals and no blank is
left.  In between the line is trimmed as well; that makes no difference to the compact text, since
a blank has no other upper case than itself.

* `Program.compact` — the text of a line that is cut at its words;
* `Program.squeeze_clean` — it is what a block squeezes out of its cleaned line;
* `Program.compact_eq_nil_iff` — nothing is squeezed out of an empty cleaned line only.
-/

set_option autoImplicit false

namespace Machining

namespace Text

/-! ## Blanks in upper case -/

/-- The small letters are no blanks. -/
theorem small_apart_blankRuns :
    ∀ s ∈ blankRuns, s.2 < 'a'.toNat ∨ 'z'.toNat < s.1 := by decide

/-- No character with a longer upper case is a blank. -/
theorem longUppercase_apart_blankRuns :
    ∀ p ∈ longUppercase, ∀ s ∈ blankRuns, p.1 < s.1 ∨ s.2 < p.1 := by
  have h : (longUppercase.all fun p => blankRuns.all fun s =>
      decide (p.1 < s.1 ∨ s.2 < p.1)) = true := by decide +kernel
  simpa using h

/-- No run of characters with an upper case meets a run of blanks. -/
theorem caseRuns_apart_blankRuns :
    ∀ r ∈ caseRuns, ∀ s ∈ blankRuns, r.last < s.1 ∨ s.2 < r.first := by
  have h : (caseRuns.all fun r => blankRuns.all fun s =>
      decide (r.last < s.1 ∨ s.2 < r.first)) = true := by decide +kernel
  simpa using h

/-- **A blank is its own upper case.** -/
theorem uppercaseChar_of_isBlank {c : Char} (h : isBlank c = true) : uppercaseChar c = [c] := by
  obtain ⟨s, hs, hc⟩ := List.any_eq_true.1 h
  simp only [Bool.and_eq_true, decide_eq_true_eq] at hc
  unfold uppercaseChar
  split
  · have hsmall : ¬ ('a' ≤ c ∧ c ≤ 'z') := by
      rintro ⟨ha, hz⟩
      have ha : 'a'.toNat ≤ c.toNat := ha
      have hz : c.toNat ≤ 'z'.toNat := hz
      have := small_apart_blankRuns s hs
      omega
    rw [if_neg hsmall]
  · have hlong : longUppercase.lookup c.toNat = none := by
      rw [List.lookup_eq_none_iff]
      intro p hp
      have := longUppercase_apart_blankRuns p hp s hs
      rw [bne_iff_ne]
      omega
    have hrun : caseRuns.find? (·.holds c.toNat) = none := by
      rw [List.find?_eq_none]
      intro r hr hholds
      simp only [CaseRun.holds, Bool.and_eq_true, decide_eq_true_eq] at hholds
      have := caseRuns_apart_blankRuns r hr s hs
      omega
    rw [uppercaseWide, hlong, hrun]

theorem squeeze_eq_nil {cs : List Char} (h : ∀ c ∈ cs, isBlank c = true) : squeeze cs = [] := by
  unfold squeeze
  rw [List.filter_eq_nil_iff]
  intro c hc
  simp [h c hc]

/-- Blanks leave nothing, in upper case or not. -/
theorem squeeze_uppercase_eq_nil {cs : List Char} (h : ∀ c ∈ cs, isBlank c = true) :
    squeeze (uppercase cs) = [] := by
  have hsame : uppercase cs = cs := by
    unfold uppercase
    rw [List.flatMap_congr fun c hc => uppercaseChar_of_isBlank (h c hc), List.flatMap_singleton']
  rw [hsame, squeeze_eq_nil h]

/-- Trimming takes blanks off both ends. -/
theorem exists_eq_trim (cs : List Char) : ∃ a b : List Char, cs = a ++ trim cs ++ b ∧
    (∀ c ∈ a, isBlank c = true) ∧ ∀ c ∈ b, isBlank c = true := by
  refine ⟨cs.takeWhile isBlank, (((cs.dropWhile isBlank).reverse).takeWhile isBlank).reverse, ?_,
    fun c hc => List.mem_takeWhile_imp hc,
    fun c hc => List.mem_takeWhile_imp (List.mem_reverse.1 hc)⟩
  rw [trim, List.append_assoc, ← List.reverse_append, List.takeWhile_append_dropWhile,
    List.reverse_reverse, List.takeWhile_append_dropWhile]

/-- **Trimming first makes no difference** to the capitals of a squeezed text. -/
theorem squeeze_uppercase_trim (cs : List Char) :
    squeeze (uppercase (trim cs)) = squeeze (uppercase cs) := by
  obtain ⟨a, b, hcs, ha, hb⟩ := exists_eq_trim cs
  have hsplit : squeeze (uppercase cs) = squeeze (uppercase (a ++ trim cs ++ b)) := by rw [← hcs]
  rw [hsplit]
  simp only [uppercase_append, squeeze_append, squeeze_uppercase_eq_nil ha,
    squeeze_uppercase_eq_nil hb, List.nil_append, List.append_nil]

/-! ## What is no blank in upper case -/

theorem isBlank_eq_false_iff {c : Char} :
    isBlank c = false ↔ ∀ s ∈ blankRuns, c.toNat < s.1 ∨ s.2 < c.toNat := by
  simp only [isBlank, List.any_eq_false, Bool.and_eq_true, decide_eq_true_eq, not_and_or, not_le]

/-- A code point outside the runs of blanks gives no blank, even where it is no character. -/
theorem isBlank_ofNat {n : Nat} (h : ∀ s ∈ blankRuns, n < s.1 ∨ s.2 < n) :
    isBlank (Char.ofNat n) = false := by
  rw [isBlank_eq_false_iff]
  intro s hs
  by_cases hn : n.isValidChar
  · rw [Char.toNat_ofNat, if_pos hn]
    exact h s hs
  · have hfirst : ∀ s ∈ blankRuns, 0 < s.1 := by decide
    rw [Char.toNat_ofNat, if_neg hn]
    exact Or.inl (hfirst s hs)

/-- No capital is a blank. -/
theorem capital_apart_blankRuns :
    ∀ s ∈ blankRuns, s.2 < 'A'.toNat ∨ 'Z'.toNat < s.1 := by decide

/-- A longer upper case is not made of blanks. -/
theorem exists_apart_of_mem_longUppercase :
    ∀ p ∈ longUppercase, ∃ n ∈ p.2, ∀ s ∈ blankRuns, n < s.1 ∨ s.2 < n := by
  have h : (longUppercase.all fun p => p.2.any fun n => blankRuns.all fun s =>
      decide (n < s.1 ∨ s.2 < n)) = true := by decide +kernel
  simpa using h

/-- No run of characters has its upper case among the blanks. -/
theorem shift_apart_blankRuns : ∀ r ∈ caseRuns, 0 ≤ r.first + r.shift ∧
    ∀ s ∈ blankRuns, r.last + r.shift < s.1 ∨ (s.2 : Int) < r.first + r.shift := by
  have h : (caseRuns.all fun r => decide (0 ≤ r.first + r.shift) && blankRuns.all fun s =>
      decide (r.last + r.shift < s.1 ∨ (s.2 : Int) < r.first + r.shift)) = true := by decide +kernel
  simpa using h

/-- **The upper case of what is no blank** is not made of blanks. -/
theorem exists_mem_uppercaseChar {c : Char} (h : isBlank c = false) :
    ∃ d ∈ uppercaseChar c, isBlank d = false := by
  unfold uppercaseChar
  split
  · refine ⟨_, List.mem_singleton_self _, ?_⟩
    split
    · rename_i hsmall
      have ha : 97 ≤ c.toNat := hsmall.1
      have hz : c.toNat ≤ 122 := hsmall.2
      refine isBlank_ofNat fun s hs => ?_
      have hcapital : s.2 < 65 ∨ 90 < s.1 := capital_apart_blankRuns s hs
      omega
    · exact h
  · unfold uppercaseWide
    split
    · rename_i cs hcs
      obtain ⟨l, l', hsplit, -⟩ := List.lookup_eq_some_iff.1 hcs
      have hmem : (c.toNat, cs) ∈ longUppercase := by simp [hsplit]
      obtain ⟨n, hn, hapart⟩ := exists_apart_of_mem_longUppercase _ hmem
      exact ⟨_, List.mem_map_of_mem hn, isBlank_ofNat hapart⟩
    · split
      · rename_i r hr
        refine ⟨_, List.mem_singleton_self _, isBlank_ofNat fun s hs => ?_⟩
        obtain ⟨hzero, hapart⟩ := shift_apart_blankRuns r (List.mem_of_find?_eq_some hr)
        have hholds := List.find?_some hr
        simp only [CaseRun.holds, Bool.and_eq_true, decide_eq_true_eq] at hholds
        have := hapart s hs
        omega
      · exact ⟨c, List.mem_singleton_self c, h⟩

theorem uppercase_eq_nil_iff {cs : List Char} : uppercase cs = [] ↔ cs = [] := by
  unfold uppercase
  rw [List.flatMap_eq_nil_iff, List.eq_nil_iff_forall_not_mem]
  refine forall₂_congr fun c _ => iff_false_intro fun hnil => ?_
  cases hc : isBlank c with
  | true => simp [uppercaseChar_of_isBlank hc] at hnil
  | false =>
    obtain ⟨d, hd, -⟩ := exists_mem_uppercaseChar hc
    simp [hnil] at hd

theorem squeeze_uppercase_eq_nil_iff {cs : List Char} :
    squeeze (uppercase cs) = [] ↔ ∀ c ∈ cs, isBlank c = true := by
  refine ⟨fun h c hc => ?_, squeeze_uppercase_eq_nil⟩
  by_contra hblank
  obtain ⟨d, hd, hvisible⟩ := exists_mem_uppercaseChar (Bool.eq_false_of_not_eq_true hblank)
  have hmem : d ∈ squeeze (uppercase cs) :=
    List.mem_filter.2 ⟨List.mem_flatMap.2 ⟨c, hc, hd⟩, by simp [hvisible]⟩
  simp [h] at hmem

/-- Only blanks are trimmed to nothing. -/
theorem trim_eq_nil_iff {cs : List Char} : trim cs = [] ↔ ∀ c ∈ cs, isBlank c = true := by
  constructor
  · intro h
    obtain ⟨a, b, hcs, ha, hb⟩ := exists_eq_trim cs
    rw [hcs, h, List.append_nil]
    exact List.forall_mem_append.2 ⟨ha, hb⟩
  · intro h
    simp [trim, List.dropWhile_eq_nil_iff.2 h]

end Text

namespace Program

/-- A line without comments, in capitals and without blanks. -/
def compact (raw : List Char) : List Char :=
  Text.squeeze (Text.uppercase (stripComments raw))

/-- **A block is cut from the compact text** of its line. -/
theorem squeeze_clean (raw : List Char) : Text.squeeze (Block.clean raw) = compact raw :=
  Text.squeeze_uppercase_trim _

/-- **Only an empty line is compacted to nothing.** -/
theorem compact_eq_nil_iff {raw : List Char} : compact raw = [] ↔ Block.clean raw = [] := by
  unfold compact Block.clean
  rw [Text.squeeze_uppercase_eq_nil_iff, Text.uppercase_eq_nil_iff, Text.trim_eq_nil_iff]

end Program

end Machining
