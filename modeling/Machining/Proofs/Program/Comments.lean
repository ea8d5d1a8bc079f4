import Mathlib.Data.List.DropRight
import Machining.Proofs.Program.Layout

/-!
# Transparent comments

A line is stripped of its comments from left to right.  What is left has no comment of its own, for
taking one out never makes another: a parenthesis that stays is closed nowhere behind it.  So a line
is stripped once and for all, and its block can be read again from its cleaned text.  Behind a text
whose comments are all closed a further comment makes no difference, whatever it holds.

* `Program.IsBare`, `Program.stripComments_eq_self_iff` — the lines without comments are those that
  stripping leaves as they are;
* `Program.isBare_stripFrom` — a stripped line has no comment;
* `Block.clean_clean` — a cleaned line is clean;
* `Program.Closed`, `Program.stripComments_append` — a text whose comments are all closed is
  stripped by itself, whatever follows;
* `Program.stripComments_transparent` — all of this together.
-/

set_option autoImplicit false

namespace Machining

namespace Program

/-! ## Lines without comments -/

/-- The line has no comment: it has no semicolon, and no parenthesis that is opened is closed. -/
structure IsBare (cs : List Char) : Prop where
  semicolon : ';' ∉ cs
  parenthesis : ∀ a b, cs = a ++ '(' :: b → ')' ∉ b

section Bare

variable {c : Char} {cs : List Char}

theorem isBare_nil : IsBare [] := by
  refine ⟨List.not_mem_nil, fun a b h => ?_⟩
  simp at h

/-- One character more in front. -/
theorem isBare_cons_iff : IsBare (c :: cs) ↔ c ≠ ';' ∧ (c = '(' → ')' ∉ cs) ∧ IsBare cs := by
  constructor
  · rintro ⟨hsemicolon, hparenthesis⟩
    rw [List.mem_cons, not_or] at hsemicolon
    refine ⟨fun h => hsemicolon.1 h.symm, ?_, hsemicolon.2, ?_⟩
    · rintro rfl
      exact hparenthesis [] cs rfl
    · rintro a b rfl
      exact hparenthesis (c :: a) b rfl
  · rintro ⟨hc, hopen, hcs⟩
    refine ⟨?_, fun a b h => ?_⟩
    · rw [List.mem_cons, not_or]
      exact ⟨fun h => hc h.symm, hcs.semicolon⟩
    · cases a with
      | nil =>
        obtain ⟨rfl, rfl⟩ := List.cons.inj h
        exact hopen rfl
      | cons d a => exact hcs.parenthesis a b (List.cons.inj h).2

/-- A piece of a line without comments has none either. -/
theorem IsBare.piece {ds : List Char} (h : IsBare cs) (hds : ds <:+: cs) : IsBare ds := by
  obtain ⟨front, back, rfl⟩ := hds
  refine ⟨fun hmem => h.semicolon (by simp [hmem]), ?_⟩
  rintro a b rfl hmem
  exact h.parenthesis (front ++ a) (b ++ back) (by simp) (by simp [hmem])

theorem stripFrom_sublist (cs : List Char) : ∀ inside : Bool, (stripFrom inside cs).Sublist cs := by
  induction cs with
  | nil => exact fun _ => .slnil
  | cons c cs ih =>
    intro inside
    rw [stripFrom]
    split
    · split
      · exact (ih false).cons c
      · exact (ih true).cons c
    · split
      · exact (ih true).cons c
      · split
        · exact List.nil_sublist _
        · exact (ih false).cons_cons c

/-- **A stripped line has no comment.** -/
theorem isBare_stripFrom (cs : List Char) :
    ∀ inside : Bool, '\n' ∉ cs → IsBare (stripFrom inside cs) := by
  induction cs with
  | nil => exact fun _ _ => isBare_nil
  | cons c cs ih =>
    intro inside hline
    have hcs : '\n' ∉ cs := fun h => hline (List.mem_cons_of_mem c h)
    rw [stripFrom]
    split
    · split
      · exact ih false hcs
      · exact ih true hcs
    · split
      · exact ih true hcs
      · rename_i hopen
        split
        · exact isBare_nil
        · rename_i hsemicolon
          rw [isBare_cons_iff]
          refine ⟨fun h => hsemicolon ⟨h, hcs⟩, fun h hmem => ?_, ih false hcs⟩
          -- the parenthesis is kept because nothing behind it closes it
          exact hopen ⟨h, (stripFrom_sublist cs false).subset hmem⟩

theorem stripComments_cons (c : Char) (cs : List Char) : stripComments (c :: cs) =
    if c = '(' ∧ ')' ∈ cs then stripFrom true cs
    else if c = ';' ∧ '\n' ∉ cs then []
    else c :: stripComments cs := rfl

theorem stripComments_cons_of_ne (hopen : c ≠ '(') (hsemicolon : c ≠ ';') (cs : List Char) :
    stripComments (c :: cs) = c :: stripComments cs := by
  rw [stripComments_cons, if_neg fun h => hopen h.1, if_neg fun h => hsemicolon h.1]

theorem stripComments_of_isBare (h : IsBare cs) : stripComments cs = cs := by
  induction cs with
  | nil => rfl
  | cons c cs ih =>
    obtain ⟨hc, hopen, hcs⟩ := isBare_cons_iff.1 h
    rw [stripComments_cons, if_neg fun h => hopen h.1 h.2, if_neg fun h => hc h.1, ih hcs]

/-- **The lines that stripping leaves as they are** are the lines without comments. -/
theorem stripComments_eq_self_iff (hline : '\n' ∉ cs) : stripComments cs = cs ↔ IsBare cs := by
  constructor
  · intro h
    rw [← h]
    exact isBare_stripFrom cs false hline
  · exact stripComments_of_isBare

end Bare

/-! ## Closed comments -/

/-- Every semicolon and every opening parenthesis of the text belongs to a comment that is closed
in it. -/
inductive Closed : List Char → Prop
  | nil : Closed []
  | plain {c : Char} {cs : List Char} (hopen : c ≠ '(') (hsemicolon : c ≠ ';') (h : Closed cs) :
    Closed (c :: cs)
  | comment {cs ds : List Char} (hclose : ')' ∉ cs) (h : Closed ds) :
    Closed ('(' :: cs ++ ')' :: ds)

section Closed

variable {a cs : List Char}

/-- Inside a comment everything is passed over up to its end. -/
theorem stripFrom_inside (hclose : ')' ∉ cs) (b : List Char) :
    stripFrom true (cs ++ ')' :: b) = stripComments b := by
  induction cs with
  | nil => rfl
  | cons c cs ih =>
    rw [List.mem_cons, not_or] at hclose
    rw [List.cons_append, stripFrom, if_pos rfl, if_neg fun h => hclose.1 h.symm, ih hclose.2]

/-- A closed comment goes, and what follows it is stripped by itself. -/
theorem stripComments_comment (hclose : ')' ∉ cs) (b : List Char) :
    stripComments ('(' :: cs ++ ')' :: b) = stripComments b := by
  rw [List.cons_append, stripComments_cons, if_pos ⟨rfl, by simp⟩, stripFrom_inside hclose]

theorem stripComments_semicolon (hline : '\n' ∉ cs) : stripComments (';' :: cs) = [] := by
  rw [stripComments_cons, if_neg fun h => absurd h.1 (by decide), if_pos ⟨rfl, hline⟩]

/-- **A text whose comments are all closed is stripped by itself**, whatever follows. -/
theorem stripComments_append (ha : Closed a) (b : List Char) :
    stripComments (a ++ b) = stripComments a ++ stripComments b := by
  -- over the comments of `a`, since characters inside a comment are not stripped by themselves
  induction ha with
  | nil => rfl
  | plain hopen hsemicolon _ ih =>
    rw [List.cons_append, stripComments_cons_of_ne hopen hsemicolon,
      stripComments_cons_of_ne hopen hsemicolon, ih, List.cons_append]
  | comment hclose _ ih =>
    rw [List.append_assoc, List.cons_append (a := ')'), stripComments_comment hclose,
      stripComments_comment hclose, ih]

end Closed

end Program

/-! ## Clean lines -/

namespace Text

theorem uppercaseChar_of_ascii (c : Char) (hc : c.toNat < 128) :
    uppercaseChar c = [c.toUpper] := by
  revert c
  exact forall_char (by decide +kernel) fun c hwide hc => absurd hc (Nat.not_lt.2 hwide)

theorem toNat_toUpper_lt (c : Char) (hc : c.toNat < 128) : c.toUpper.toNat < 128 := by
  revert c
  exact forall_char (by decide +kernel) fun c hwide hc => absurd hc (Nat.not_lt.2 hwide)

theorem uppercase_of_ascii {cs : List Char} (h : ∀ c ∈ cs, c.toNat < 128) :
    uppercase cs = cs.map Char.toUpper := by
  unfold uppercase
  rw [List.flatMap_congr fun c hc => uppercaseChar_of_ascii c (h c hc), List.map_eq_flatMap]

theorem toUpper_toUpper (c : Char) : c.toUpper.toUpper = c.toUpper := by
  revert c
  refine forall_char (by decide +kernel) fun c hwide => ?_
  rw [toUpper_of_wide hwide, toUpper_of_wide hwide]

theorem isBlank_toUpper (c : Char) : isBlank c.toUpper = isBlank c := by
  revert c
  refine forall_char (by decide +kernel) fun c hwide => ?_
  rw [toUpper_of_wide hwide]

theorem trim_eq (cs : List Char) : trim cs = (cs.dropWhile isBlank).rdropWhile isBlank := rfl

theorem trim_isInfix (cs : List Char) : trim cs <:+: cs :=
  (List.rdropWhile_prefix _ _).isInfix.trans (List.dropWhile_suffix _).isInfix

/-- **Trimming twice** is trimming once. -/
theorem trim_trim (cs : List Char) : trim (trim cs) = trim cs := by
  have hpart : trim cs <+: cs.dropWhile isBlank := List.rdropWhile_prefix _ _
  have hfront : (trim cs).dropWhile isBlank = trim cs := by
    rw [List.dropWhile_eq_self_iff]
    intro hpos
    have hne : cs.dropWhile isBlank ≠ [] :=
      List.ne_nil_of_length_pos (hpos.trans_le hpart.length_le)
    rw [hpart.getElem hpos, ← List.head_eq_getElem hne, List.head_dropWhile_not isBlank hne]
    exact Bool.false_ne_true
  rw [trim_eq (trim cs), hfront, trim_eq, List.rdropWhile_idempotent]

/-- Trimming comes before or after the capitals. -/
theorem trim_map_toUpper (cs : List Char) :
    trim (cs.map Char.toUpper) = (trim cs).map Char.toUpper := by
  have hsame : isBlank ∘ Char.toUpper = isBlank := funext isBlank_toUpper
  unfold trim
  rw [List.dropWhile_map, hsame, ← List.map_reverse, List.dropWhile_map, hsame, List.map_reverse]

end Text

namespace Program

open Text

/-- Capitals have no comments that the letters did not have. -/
theorem IsBare.map_toUpper {cs : List Char} (h : IsBare cs) : IsBare (cs.map Char.toUpper) := by
  induction cs with
  | nil => exact isBare_nil
  | cons c cs ih =>
    obtain ⟨hc, hopen, hcs⟩ := isBare_cons_iff.1 h
    rw [List.map_cons, isBare_cons_iff, ne_eq, toUpper_eq_iff (by decide),
      toUpper_eq_iff (by decide), mem_map_toUpper_iff (by decide)]
    exact ⟨hc, hopen, ih hcs⟩

end Program

namespace Block

open Text Program

/-- Of an ASCII line the stripped text in capitals is left, without the blanks at its ends. -/
theorem clean_of_ascii {raw : List Char} (hascii : ∀ c ∈ raw, c.toNat < 128) :
    clean raw = (trim (stripComments raw)).map Char.toUpper :=
  uppercase_of_ascii fun c hc =>
    hascii c ((stripFrom_sublist raw false).subset ((trim_isInfix _).subset hc))

/-- **A cleaned line is clean.** -/
theorem clean_clean {raw : List Char} (hascii : ∀ c ∈ raw, c.toNat < 128) (hline : '\n' ∉ raw) :
    clean (clean raw) = clean raw := by
  have hbare : IsBare (trim (stripComments raw)) :=
    (isBare_stripFrom raw false hline).piece (trim_isInfix _)
  have hcapitals : ∀ c ∈ clean raw, c.toNat < 128 := by
    intro c hc
    rw [clean_of_ascii hascii] at hc
    obtain ⟨d, hd, rfl⟩ := List.mem_map.1 hc
    exact toNat_toUpper_lt d
      (hascii d ((stripFrom_sublist raw false).subset ((trim_isInfix _).subset hd)))
  -- what is left is bare and trimmed, and capitals change neither
  rw [clean_of_ascii hcapitals, clean_of_ascii hascii, stripComments_of_isBare hbare.map_toUpper,
    trim_map_toUpper, trim_trim, List.map_map]
  congr 1
  funext c
  exact toUpper_toUpper c

/-- **A block can be read again from its cleaned text.** -/
theorem ofLine_cleaned {α : Type} [Scalar α] {raw : String}
    (hascii : ∀ c ∈ raw.toList, c.toNat < 128) (hline : '\n' ∉ raw.toList) (n m : Nat) :
    (ofLine (ofLine raw n : Block α).cleaned m : Block α) =
      { (ofLine raw n : Block α) with raw := (ofLine raw n : Block α).cleaned, line := m } := by
  have hclean : clean (ofLine raw n : Block α).cleaned.toList = clean raw.toList := by
    show clean (String.ofList (clean raw.toList)).toList = clean raw.toList
    rw [String.toList_ofList, clean_clean hascii hline]
  unfold ofLine at hclean ⊢
  simp only [hclean]

end Block

namespace Program

/-- **Comments are transparent.**  A stripped line has no comment left, so stripping it again
changes nothing, and an ASCII line gives the same cleaned text, words and faults when it is read
again from its cleaned text.  Behind a text whose comments are all closed, a further comment in
parentheses goes without a trace, whatever it holds and whatever follows it, and so does a comment
from a semicolon to the end of the line. -/
theorem stripComments_transparent (α : Type) [Scalar α] :
    (∀ cs : List Char, '\n' ∉ cs →
      ';' ∉ stripComments cs ∧ (∀ a b, stripComments cs = a ++ '(' :: b → ')' ∉ b) ∧
        stripComments (stripComments cs) = stripComments cs) ∧
    (∀ (raw : String) (n m : Nat), (∀ c ∈ raw.toList, c.toNat < 128) → '\n' ∉ raw.toList →
      let block : Block α := .ofLine raw n
      let again : Block α := .ofLine block.cleaned m
      again.cleaned = block.cleaned ∧ again.words = block.words ∧ again.faults = block.faults) ∧
    (∀ a c b : List Char, Closed a → ')' ∉ c →
      stripComments (a ++ '(' :: c ++ ')' :: b) = stripComments a ++ stripComments b) ∧
    ∀ a d : List Char, Closed a → '\n' ∉ d → stripComments (a ++ ';' :: d) = stripComments a := by
  refine ⟨?bare, ?again, ?parenthesis, ?semicolon⟩
  case bare =>
    intro cs hline
    have hbare : IsBare (stripComments cs) := isBare_stripFrom cs false hline
    exact ⟨hbare.semicolon, hbare.parenthesis, stripComments_of_isBare hbare⟩
  case again =>
    intro raw n m hascii hline block again
    have hsame : again = { block with raw := block.cleaned, line := m } :=
      Block.ofLine_cleaned hascii hline n m
    rw [hsame]
    exact ⟨rfl, rfl, rfl⟩
  case parenthesis =>
    intro a c b ha hc
    rw [List.append_assoc, stripComments_append ha, stripComments_comment hc]
  case semicolon =>
    intro a d ha hd
    rw [stripComments_append ha, stripComments_semicolon hd, List.append_nil]

/-- A line with a semicolon and a parenthesis in its comment, one more comment of this kind in front
of a second line, and one from a semicolon on. -/
theorem stripComments_transparent_nestedMarks :
    let a : List Char := ['g', '1', '(', 'a', ';', '(', 'b', ')', 'x', '#', '5']
    let block : Block Float := .ofLine (String.ofList a) 1
    let again : Block Float := .ofLine block.cleaned 7
    (∀ c ∈ (String.ofList a).toList, c.toNat < 128) ∧ '\n' ∉ (String.ofList a).toList ∧ Closed a ∧
    again.words = [⟨'G', 1⟩] ∧ again.faults = [.unparsedTail "X#5"] ∧
    stripComments (stripComments a) = ['g', '1', 'x', '#', '5'] ∧
    stripComments (a ++ '(' :: ['c', '(', ';'] ++ ')' :: ['\n', '(', 'd', ')', 'y']) =
      ['g', '1', 'x', '#', '5', '\n', 'y'] ∧
    stripComments (a ++ ';' :: ['(', 'd', ')', 'y']) = ['g', '1', 'x', '#', '5'] := by
  intro a block again
  obtain ⟨hbare, hagain, hparenthesis, hsemicolon⟩ := stripComments_transparent Float
  have hascii : ∀ c ∈ (String.ofList a).toList, c.toNat < 128 := by
    rw [String.toList_ofList]
    simp [a]
  have hline : '\n' ∉ (String.ofList a).toList := by
    rw [String.toList_ofList]
    decide
  have hclosed : Closed a :=
    .plain (by decide) (by decide) <| .plain (by decide) (by decide) <|
      @Closed.comment ['a', ';', '(', 'b'] _ (by decide) <|
        .plain (by decide) (by decide) <| .plain (by decide) (by decide) <|
          .plain (by decide) (by decide) .nil
  obtain ⟨-, hwords, hfaults⟩ := hagain (String.ofList a) 1 7 hascii hline
  refine ⟨hascii, hline, hclosed, hwords.trans (by decide +kernel),
    hfaults.trans (by decide +kernel), ?_, ?_, ?_⟩
  · rw [(hbare a (by decide)).2.2]
    decide
  · rw [hparenthesis a ['c', '(', ';'] _ hclosed (by decide)]
    decide
  · rw [hsemicolon a ['(', 'd', ')', 'y'] hclosed (by decide)]
    decide

end Program

end Machining
