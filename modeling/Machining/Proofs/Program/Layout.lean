import Mathlib.Logic.Relation
import Machining.Proofs.Program.Accepted

/-!
# Layout and letter case

Blanks and the case of letters carry no meaning in a program: blanks may be put in and taken out
anywhere on a line, in words, numbers and comments, and ASCII letters may change their case.  Such
edits change neither the skeleton of a text, its capitals without blanks, nor its division into
lines, and a line's words and faults can be read off its skeleton.

* `LayoutEdit` — one edit of this kind;
* `skeleton_eq_of_edits` — edits keep the skeleton;
* `compact_fold` — a folded line has the compact text of the line;
* `contents_parse_eq` — programs with one skeleton have the same blocks but for their texts.
-/

set_option autoImplicit false

namespace Machining

namespace Text

/-- An edit of the layout: a blank other than the line feed is put in or taken out, or the case of
an ASCII letter is changed. -/
inductive LayoutEdit : List Char → List Char → Prop
  | insert {c : Char} (a b : List Char) (hblank : isBlank c = true) (hline : c ≠ '\n') :
    LayoutEdit (a ++ b) (a ++ c :: b)
  | delete {c : Char} (a b : List Char) (hblank : isBlank c = true) (hline : c ≠ '\n') :
    LayoutEdit (a ++ c :: b) (a ++ b)
  | recase {c d : Char} (a b : List Char) (hc : c.isAlpha = true) (hd : d.isAlpha = true)
    (hsame : c.toUpper = d.toUpper) : LayoutEdit (a ++ c :: b) (a ++ d :: b)

/-- The capitals of a text without its blanks, line feeds apart. -/
def skeleton (cs : List Char) : List Char :=
  (cs.filter fun c => !isBlank c || c == '\n').map Char.toUpper

/-- The capitals of a line without its blanks. -/
def fold (cs : List Char) : List Char := (squeeze cs).map Char.toUpper

/-! ## Characters -/

/-- A fact about all characters can be checked for ASCII and argued for the others. -/
theorem forall_char {P : Char → Prop} [DecidablePred P]
    (hascii : ((List.range 128).all fun n => decide (P (Char.ofNat n))) = true)
    (hwide : ∀ c : Char, 128 ≤ c.toNat → P c) (c : Char) : P c := by
  by_cases h : c.toNat < 128
  · have hc := List.all_eq_true.1 hascii c.toNat (List.mem_range.2 h)
    rw [Char.ofNat_toNat] at hc
    exact of_decide_eq_true hc
  · exact hwide c (Nat.le_of_not_lt h)

theorem toUpper_of_wide {c : Char} (h : 128 ≤ c.toNat) : c.toUpper = c := by
  unfold Char.toUpper
  rw [dif_neg]
  intro hlower
  have hz : c.toNat ≤ 'z'.toNat := hlower.2
  have hnat : 'z'.toNat = 122 := rfl
  omega

/-- The upper case of a letter is the upper case of its capital. -/
theorem uppercaseChar_toUpper (c : Char) : uppercaseChar c.toUpper = uppercaseChar c := by
  revert c
  refine forall_char (by decide +kernel) fun c hc => ?_
  rw [toUpper_of_wide hc]

/-- A mark of comments or lines is no letter. -/
theorem toUpper_eq_iff {m : Char} (hm : m ∈ ['(', ')', ';', '\n']) (c : Char) :
    c.toUpper = m ↔ c = m := by
  have hwide (c : Char) (hc : 128 ≤ c.toNat) : c.toUpper = m ↔ c = m := by
    rw [toUpper_of_wide hc]
  revert c
  simp only [List.mem_cons, List.not_mem_nil, or_false] at hm
  rcases hm with rfl | rfl | rfl | rfl
  all_goals exact forall_char (by decide +kernel) hwide

theorem isBlank_of_isAlpha (c : Char) (hc : c.isAlpha = true) : isBlank c = false := by
  revert c
  refine forall_char (by decide +kernel) fun c hwide hc => ?_
  simp only [Char.isAlpha, Char.isUpper, Char.isLower, Bool.or_eq_true, Bool.and_eq_true,
    decide_eq_true_eq, ge_iff_le, UInt32.le_iff_toNat_le] at hc
  have hnat : c.toNat = c.val.toNat := rfl
  have hZ : 'Z'.val.toNat = 90 := rfl
  have hz : 'z'.val.toNat = 122 := rfl
  omega

/-! ## Edits -/

theorem skeleton_append (a b : List Char) : skeleton (a ++ b) = skeleton a ++ skeleton b := by
  simp only [skeleton, List.filter_append, List.map_append]

theorem skeleton_cons_of_blank {c : Char} (hblank : isBlank c = true) (hline : c ≠ '\n')
    (cs : List Char) : skeleton (c :: cs) = skeleton cs := by
  simp [skeleton, hblank, hline]

theorem skeleton_cons_of_not_blank {c : Char} (hblank : isBlank c = false) (cs : List Char) :
    skeleton (c :: cs) = c.toUpper :: skeleton cs := by
  simp [skeleton, hblank]

theorem skeleton_eq_of_edit {s t : List Char} (h : LayoutEdit s t) : skeleton s = skeleton t := by
  cases h with
  | insert a b hblank hline =>
    rw [skeleton_append, skeleton_append, skeleton_cons_of_blank hblank hline]
  | delete a b hblank hline =>
    rw [skeleton_append, skeleton_append, skeleton_cons_of_blank hblank hline]
  | recase a b hc hd hsame =>
    rw [skeleton_append, skeleton_append, skeleton_cons_of_not_blank (isBlank_of_isAlpha _ hc),
      skeleton_cons_of_not_blank (isBlank_of_isAlpha _ hd), hsame]

/-- **Edits of the layout keep the skeleton.** -/
theorem skeleton_eq_of_edits {s t : List Char} (h : Relation.ReflTransGen LayoutEdit s t) :
    skeleton s = skeleton t := by
  induction h with
  | refl => rfl
  | tail _ hedit ih => exact ih.trans (skeleton_eq_of_edit hedit)

/-! ## Lines -/

theorem fold_cons_of_blank {c : Char} (h : isBlank c = true) (cs : List Char) :
    fold (c :: cs) = fold cs := by
  simp [fold, squeeze, h]

theorem fold_cons_of_not_blank {c : Char} (h : isBlank c = false) (cs : List Char) :
    fold (c :: cs) = c.toUpper :: fold cs := by
  simp [fold, squeeze, h]

/-- **The lines of a skeleton** are those of the text, each folded. -/
theorem split_skeleton (cs : List Char) :
    split '\n' (skeleton cs) = (split '\n' cs).map fold := by
  induction cs with
  | nil => rfl
  | cons c cs ih =>
    obtain ⟨l, ls, hsplit⟩ := List.exists_cons_of_ne_nil (split_ne_nil '\n' cs)
    by_cases hline : c = '\n'
    · have hskeleton : skeleton (c :: cs) = '\n' :: skeleton cs := by
        simp [skeleton, hline]
      rw [hskeleton, split_cons_self, ih, hline, split_cons_self]
      rfl
    · rw [split_cons_of_ne hline, hsplit, List.modifyHead_cons, List.map_cons]
      rw [hsplit, List.map_cons] at ih
      cases hblank : isBlank c with
      | true => rw [skeleton_cons_of_blank hblank hline, ih, fold_cons_of_blank hblank]
      | false =>
        have hupper : c.toUpper ≠ '\n' := by
          rw [ne_eq, toUpper_eq_iff (by decide)]
          exact hline
        rw [skeleton_cons_of_not_blank hblank, split_cons_of_ne hupper, ih, List.modifyHead_cons,
          fold_cons_of_not_blank hblank]

theorem not_mem_of_mem_split {separator : Char} {cs l : List Char}
    (h : l ∈ split separator cs) : separator ∉ l := by
  induction cs generalizing l with
  | nil =>
    rw [split, List.mem_singleton] at h
    rw [h]
    exact List.not_mem_nil
  | cons c cs ih =>
    obtain ⟨m, ms, hsplit⟩ := List.exists_cons_of_ne_nil (split_ne_nil separator cs)
    by_cases hc : c = separator
    · rw [hc, split_cons_self] at h
      rcases List.mem_cons.1 h with rfl | h
      · exact List.not_mem_nil
      · exact ih h
    · rw [split_cons_of_ne hc, hsplit, List.modifyHead_cons] at h
      rw [hsplit] at ih
      rcases List.mem_cons.1 h with rfl | h
      · rw [List.mem_cons, not_or]
        exact ⟨fun heq => hc heq.symm, ih List.mem_cons_self⟩
      · exact ih (List.mem_cons_of_mem _ h)

theorem mem_squeeze_iff {m : Char} (hm : isBlank m = false) (cs : List Char) :
    m ∈ squeeze cs ↔ m ∈ cs := by
  simp [squeeze, hm]

theorem mem_map_toUpper_iff {m : Char} (hm : m ∈ ['(', ')', ';', '\n']) (cs : List Char) :
    m ∈ cs.map Char.toUpper ↔ m ∈ cs := by
  simp only [List.mem_map, toUpper_eq_iff hm, exists_eq_right]

end Text

namespace Program

open Text

/-! ## Compact texts -/

/-- **Comments without blanks**: a line is stripped of the same comments with its blanks and
without them. -/
theorem squeeze_uppercase_stripFrom (cs : List Char) : ∀ inside : Bool, '\n' ∉ cs →
    squeeze (uppercase (stripFrom inside (squeeze cs))) =
      squeeze (uppercase (stripFrom inside cs)) := by
  induction cs with
  | nil => exact fun _ _ => rfl
  | cons c cs ih =>
    intro inside h
    have hcs : '\n' ∉ cs := fun hc => h (List.mem_cons_of_mem c hc)
    cases hblank : isBlank c with
    | true =>
      have hsqueeze : squeeze (c :: cs) = squeeze cs := by simp [squeeze, hblank]
      have hmark : ∀ m ∈ ['(', ')', ';'], c ≠ m := by
        rintro m hm rfl
        revert hblank
        simp only [List.mem_cons, List.not_mem_nil, or_false] at hm
        rcases hm with rfl | rfl | rfl <;> decide
      rw [hsqueeze, ih inside hcs, stripFrom]
      cases inside with
      | true => rw [if_pos rfl, if_neg (hmark ')' (by decide))]
      | false =>
        rw [if_neg (by decide), if_neg fun h => hmark '(' (by decide) h.1,
          if_neg fun h => hmark ';' (by decide) h.1]
        have hupper : uppercase (c :: stripFrom false cs) =
            [c] ++ uppercase (stripFrom false cs) := by
          rw [← uppercaseChar_of_isBlank hblank]
          rfl
        have hgone : squeeze [c] = [] := by simp [squeeze, hblank]
        rw [hupper, squeeze_append, hgone, List.nil_append]
    | false =>
      have hsqueeze : squeeze (c :: cs) = c :: squeeze cs := by simp [squeeze, hblank]
      have hline : '\n' ∉ squeeze cs := fun h => hcs (List.mem_of_mem_filter h)
      rw [hsqueeze, stripFrom, stripFrom]
      simp only [mem_squeeze_iff (by decide : isBlank ')' = false), hcs, hline]
      have hrest (x y : List Char) (hxy : squeeze (uppercase x) = squeeze (uppercase y)) :
          squeeze (uppercase (c :: x)) = squeeze (uppercase (c :: y)) := by
        have hcons (z : List Char) : uppercase (c :: z) = uppercaseChar c ++ uppercase z := rfl
        rw [hcons, hcons, squeeze_append, squeeze_append, hxy]
      split
      · split
        · exact ih false hcs
        · exact ih true hcs
      · split
        · exact ih true hcs
        · split
          · rfl
          · exact hrest _ _ (ih false hcs)

/-- **Comments in capitals**: a text is stripped of the same comments in every letter case. -/
theorem uppercase_stripFrom_map_toUpper (cs : List Char) : ∀ inside : Bool,
    uppercase (stripFrom inside (cs.map Char.toUpper)) = uppercase (stripFrom inside cs) := by
  induction cs with
  | nil => exact fun _ => rfl
  | cons c cs ih =>
    intro inside
    rw [List.map_cons, stripFrom, stripFrom]
    simp only [toUpper_eq_iff (by decide : ')' ∈ ['(', ')', ';', '\n']),
      toUpper_eq_iff (by decide : '(' ∈ ['(', ')', ';', '\n']),
      toUpper_eq_iff (by decide : ';' ∈ ['(', ')', ';', '\n']),
      mem_map_toUpper_iff (by decide : ')' ∈ ['(', ')', ';', '\n']),
      mem_map_toUpper_iff (by decide : '\n' ∈ ['(', ')', ';', '\n'])]
    split
    · split
      · exact ih false
      · exact ih true
    · split
      · exact ih true
      · split
        · rfl
        · have hcons (d : Char) (x : List Char) :
              uppercase (d :: x) = uppercaseChar d ++ uppercase x := rfl
          rw [hcons, hcons, uppercaseChar_toUpper, ih]

/-- **A folded line has the compact text of the line.** -/
theorem compact_fold {l : List Char} (hl : '\n' ∉ l) : compact (fold l) = compact l := by
  unfold compact stripComments fold
  rw [uppercase_stripFrom_map_toUpper, squeeze_uppercase_stripFrom l false hl]

theorem fold_dropReturn (l : List Char) : fold (dropReturn l) = fold l := by
  unfold dropReturn
  split
  · rename_i hlast
    obtain ⟨front, rfl⟩ := List.getLast?_eq_some_iff.1 hlast
    have hreturn : squeeze ['\r'] = [] := by decide
    rw [List.dropLast_concat, fold, fold, squeeze_append, hreturn, List.append_nil]
  · rfl

theorem not_mem_dropReturn {l : List Char} (hl : '\n' ∉ l) : '\n' ∉ dropReturn l := by
  unfold dropReturn
  split
  · exact fun h => hl (List.mem_of_mem_dropLast h)
  · exact hl

end Program

/-! ## Blocks -/

namespace Block

variable {α : Type}

/-- What a block holds besides its texts. -/
def content (b : Block α) : Nat × List (Word α) × List BlockFault := (b.line, b.words, b.faults)

variable [Scalar α]

/-- **The content of a line can be read off the folded line.** -/
theorem content_ofLine {l : List Char} (hl : '\n' ∉ l) (n : Nat) :
    (ofLine (String.ofList (Program.dropReturn l)) n : Block α).content =
      (n, wordsOfCut (Word.cut (Program.compact (Text.fold l))),
        faultsOfCut (α := α) (Word.cut (Program.compact (Text.fold l)))) := by
  have hcompact : Program.compact (Program.dropReturn l) = Program.compact (Text.fold l) := by
    rw [← Program.compact_fold (Program.not_mem_dropReturn hl), Program.fold_dropReturn]
  unfold content
  rw [words_eq, faults_eq, String.toList_ofList, hcompact]
  rfl

end Block

namespace Program

open Text

variable {α : Type} [Scalar α]

theorem contents_parseFrom (n : Nat) : ∀ {ls ms : List (List Char)},
    (∀ l ∈ ls, '\n' ∉ l) → (∀ m ∈ ms, '\n' ∉ m) → ls.map fold = ms.map fold →
    (parseFrom n ls : List (Block α)).map Block.content =
      (parseFrom n ms : List (Block α)).map Block.content := by
  intro ls ms
  induction ls generalizing ms n with
  | nil =>
    intro _ _ h
    cases ms with
    | nil => rfl
    | cons m ms => cases h
  | cons l ls ih =>
    intro hls hms h
    cases ms with
    | nil => cases h
    | cons m ms =>
      rw [List.map_cons, List.map_cons] at h
      injection h with hfold hrest
      rw [parseFrom, parseFrom, List.map_cons, List.map_cons,
        Block.content_ofLine (hls l List.mem_cons_self),
        Block.content_ofLine (hms m List.mem_cons_self), hfold,
        ih (n + 1) (fun x hx => hls x (List.mem_cons_of_mem _ hx))
          (fun x hx => hms x (List.mem_cons_of_mem _ hx)) hrest]

/-- **Programs with one skeleton have the same blocks but for their texts.** -/
theorem contents_parse_eq {s t : String} (h : skeleton s.toList = skeleton t.toList) :
    (parse s : List (Block α)).map Block.content =
      (parse t : List (Block α)).map Block.content := by
  have hlines : (lines s.toList).map fold = (lines t.toList).map fold := by
    unfold lines
    rw [← split_skeleton, ← split_skeleton, h]
  exact contents_parseFrom 0 (fun _ => not_mem_of_mem_split) (fun _ => not_mem_of_mem_split) hlines

end Program

end Machining
