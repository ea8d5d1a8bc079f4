import Machining.Proofs.Text.Hexadecimal
import Machining.Toml.Writing

/-!
# Quoted texts of TOML read back

Between its marks a text stands as it is or, in double quotes, with escapes.  `BodySpelling` says
how it may stand there, with a count of the marks in a row that belong to the text: between
threefold marks two of them may follow each other, and only what comes after tells whether they
end the text.  Every way in which texts are written is such a spelling, and every spelling is read
as its text.

* `BodySpelling` — the ways of writing a text between marks;
* `body?_of_spelling` — every spelling is read as its text;
* `Quoting.spelling_escape`, `Quoting.spelling_literal` — the two ways in which texts are written;
* `text?_write` — a written text reads back.
-/

set_option autoImplicit false

namespace Machining.Toml

/-- A run of characters ends before the first one of another kind. -/
theorem span_append {p : Char → Bool} {cs rest : List Char} (hcs : ∀ c ∈ cs, p c = true)
    (hrest : ∀ c ∈ rest.head?, p c = false) :
    (cs ++ rest).takeWhile p = cs ∧ (cs ++ rest).dropWhile p = rest := by
  rw [List.takeWhile_append_of_pos hcs, List.dropWhile_append_of_pos hcs]
  cases rest with
  | nil => exact ⟨List.append_nil cs, rfl⟩
  | cons c rest =>
    have hc : ¬p c = true := by simp [hrest c rfl]
    rw [List.takeWhile_cons_of_neg hc, List.append_nil, List.dropWhile_cons_of_neg hc]
    exact ⟨rfl, rfl⟩

/-! ## Spellings -/

/-- The ways of writing a text between marks, after `run` marks in a row that belong to it. -/
inductive BodySpelling (q : Quote) (spansLines : Bool) : ℕ → List Char → List Char → Prop
  | nil {run : ℕ} : BodySpelling q spansLines run [] []
  | mark {run : ℕ} {cs ds : List Char} (hspans : spansLines = true) (hrun : run < 2)
      (hcs : BodySpelling q spansLines (run + 1) cs ds) :
      BodySpelling q spansLines run (q.mark :: cs) (q.mark :: ds)
  | plain {run : ℕ} {c : Char} {cs ds : List Char} (hmark : c ≠ q.mark)
      (hslash : ¬(c = '\\' ∧ q = .basic)) (hc : isTextChar c = true)
      (hcs : BodySpelling q spansLines 0 cs ds) : BodySpelling q spansLines run (c :: cs) (c :: ds)
  | newline {run : ℕ} {cs ds : List Char} (hspans : spansLines = true)
      (hcs : BodySpelling q spansLines 0 cs ds) :
      BodySpelling q spansLines run ('\n' :: cs) ('\n' :: ds)
  | escape {run : ℕ} {c e : Char} {es cs ds : List Char} (hq : q = .basic)
      (he : isBlank e = false ∧ e ≠ '\n' ∧ e ≠ '\r')
      (hes : ∀ rest, escape? (e :: es ++ rest) = some (c, rest))
      (hcs : BodySpelling q spansLines 0 cs ds) :
      BodySpelling q spansLines run (c :: cs) ('\\' :: e :: es ++ ds)

/-- The marks that close a text. -/
def closingMarks (q : Quote) (spansLines : Bool) : List Char :=
  List.replicate (if spansLines then 3 else 1) q.mark

/-! ## One step of the reader -/

section Steps

variable {q : Quote} {spansLines : Bool} {c : Char} {cs rest marks : List Char}

theorem Quote.mark_ne_newline (q : Quote) : '\n' ≠ q.mark := by
  cases q <;> decide

theorem Quote.mark_ne_slash (q : Quote) : '\\' ≠ q.mark := by
  cases q <;> decide

theorem body?_close : body? q false (q.mark :: rest) = some ([], rest) := by
  rw [body?, if_pos rfl]
  rfl

theorem body?_closing (h : closing? q.mark cs = some (marks, rest)) (hmarks : marks.length ≤ 2) :
    body? q true (q.mark :: cs) = some (marks, rest) := by
  rw [body?, if_pos rfl]
  simp [h, hmarks]

theorem body?_mark (h : closing? q.mark cs = none) :
    body? q true (q.mark :: cs) = (body? q true cs).map fun p => (q.mark :: p.1, p.2) := by
  rw [body?, if_pos rfl]
  simp [h]

theorem body?_plain (hmark : c ≠ q.mark) (hslash : ¬(c = '\\' ∧ q = .basic))
    (hc : isTextChar c = true) :
    body? q spansLines (c :: cs) = (body? q spansLines cs).map fun p => (c :: p.1, p.2) := by
  rw [body?, if_neg hmark, if_neg hslash, if_pos hc]

theorem body?_newline :
    body? q true ('\n' :: cs) = (body? q true cs).map fun p => ('\n' :: p.1, p.2) := by
  rw [body?, if_neg q.mark_ne_newline, if_neg (by simp), if_neg (by decide), if_pos rfl]
  rfl

theorem continuation?_eq_none {e : Char} (he : isBlank e = false ∧ e ≠ '\n' ∧ e ≠ '\r')
    (es : List Char) : continuation? (e :: es) = none := by
  obtain ⟨hblank, hnewline, hreturn⟩ := he
  rw [continuation?, skipBlanks, List.dropWhile_cons_of_neg (by simp [hblank])]
  unfold newline?
  split <;> simp_all

theorem body?_escape {e : Char} {es : List Char} (he : isBlank e = false ∧ e ≠ '\n' ∧ e ≠ '\r')
    (hes : escape? (e :: es) = some (c, rest)) : body? .basic spansLines ('\\' :: e :: es) =
      (body? .basic spansLines rest).map fun p => (c :: p.1, p.2) := by
  have hcontinues : (if spansLines = true then continuation? (e :: es) else none) = none := by
    rw [continuation?_eq_none he, ite_self]
  rw [body?, if_neg (by decide), if_pos ⟨rfl, rfl⟩]
  split
  · rename_i hsome
    cases hcontinues.symm.trans hsome
  · split
    · rename_i hnone
      cases hes.symm.trans hnone
    · rename_i hsome
      cases hes.symm.trans hsome
      rfl

end Steps

/-! ## Whole texts -/

section Texts

variable {q : Quote} {spansLines : Bool} {run : ℕ} {cs ds rest : List Char}

/-- Marks in a row, closing ones included, in front of a text without a mark in front. -/
theorem closing?_replicate {m : Char} (n : ℕ) (hrest : rest.head? ≠ some m) :
    closing? m (List.replicate n m ++ rest) =
      if n < 2 then none else some (List.replicate (n - 2) m, rest) := by
  have hall : ∀ c ∈ List.replicate n m, (c == m) = true := by
    intro c hc
    simp [List.eq_of_mem_replicate hc]
  have hstop : ∀ c ∈ rest.head?, (c == m) = false := by
    intro c hc
    rw [beq_eq_false_iff_ne]
    rintro rfl
    exact hrest hc
  obtain ⟨htake, hdrop⟩ := span_append hall hstop
  rw [closing?, htake, hdrop, List.length_replicate, List.drop_replicate]

/-- The first character of a spelling is no mark, unless the text begins with one. -/
theorem BodySpelling.head_ne_mark (h : BodySpelling q spansLines run cs ds) (hds : ds ≠ [])
    (hrun : spansLines = true → 2 ≤ run) : ds.head? ≠ some q.mark := by
  cases h with
  | nil => exact absurd rfl hds
  | mark hspans hlt => exact absurd (hrun hspans) (by omega)
  | plain hmark => simpa using hmark
  | newline => simpa using q.mark_ne_newline
  | escape => simpa using q.mark_ne_slash

theorem closing?_of_head? {m : Char} (hcs : cs.head? ≠ some m) : closing? m cs = none :=
  closing?_replicate 0 hcs

/-- After a mark either the text goes on or no more than one further mark of it is left. -/
theorem BodySpelling.closing? (h : BodySpelling q true (run + 1) cs ds)
    (hrest : rest.head? ≠ some q.mark) :
    (Toml.closing? q.mark (ds ++ (closingMarks q true ++ rest)) = some (q.mark :: cs, rest) ∧
      cs.length ≤ 1) ∨ Toml.closing? q.mark (ds ++ (closingMarks q true ++ rest)) = none := by
  by_cases hds : ds = []
  · subst hds
    cases h
    exact .inl ⟨closing?_replicate 3 hrest, Nat.zero_le 1⟩
  by_cases hhead : ds.head? = some q.mark
  · -- the text has a second mark in a row, which must be the last one in a row
    cases h with
    | nil => exact absurd rfl hds
    | @mark _ cs es _ hrun hes =>
      by_cases hnil : es = []
      · subst hnil
        cases hes
        exact .inl ⟨closing?_replicate 4 hrest, le_rfl⟩
      · have hnext : (es ++ (closingMarks q true ++ rest)).head? ≠ some q.mark := by
          rw [List.head?_append_of_ne_nil _ hnil]
          exact hes.head_ne_mark hnil fun _ => by omega
        exact .inr (closing?_replicate 1 hnext)
    | plain hmark => exact absurd (Option.some.inj hhead) hmark
    | newline => exact absurd (Option.some.inj hhead) q.mark_ne_newline
    | escape => exact absurd (Option.some.inj hhead) q.mark_ne_slash
  · exact .inr (closing?_of_head? (by rwa [List.head?_append_of_ne_nil _ hds]))

/-- **Every spelling of a text, up to its closing marks, is read as the text.** -/
theorem body?_of_spelling (h : BodySpelling q spansLines run cs ds)
    (hrest : rest.head? ≠ some q.mark) :
    body? q spansLines (ds ++ (closingMarks q spansLines ++ rest)) = some (cs, rest) := by
  induction h with
  | nil =>
    cases spansLines with
    | false => exact body?_close
    | true => exact body?_closing (closing?_replicate 2 hrest) (Nat.zero_le 2)
  | @mark run cs ds hspans hrun hcs ih =>
    subst hspans
    rw [List.cons_append]
    rcases hcs.closing? hrest with ⟨hclosing, hlength⟩ | hnone
    · exact body?_closing hclosing (by simpa using hlength)
    · rw [body?_mark hnone, ih, Option.map_some]
  | plain hmark hslash hc _ ih =>
    rw [List.cons_append, body?_plain hmark hslash hc, ih, Option.map_some]
  | newline hspans _ ih =>
    subst hspans
    rw [List.cons_append, body?_newline, ih, Option.map_some]
  | @escape run c e es cs ds hq he hes _ ih =>
    subst hq
    have hes' := hes (ds ++ (closingMarks .basic spansLines ++ rest))
    simp only [List.cons_append, List.append_assoc] at hes' ⊢
    rw [body?_escape he hes', ih, Option.map_some]

end Texts

/-! ## Written texts -/

namespace Quoting

/-- The letters after a backslash, and what they stand for. -/
theorem escape?_letter {l c : Char} (hl : l ≠ 'u' ∧ l ≠ 'U') (hc : letterEscape? l = some c)
    (rest : List Char) : Toml.escape? (l :: [] ++ rest) = some (c, rest) := by
  rw [List.cons_append, Toml.escape?, if_neg hl.1, if_neg hl.2, hc]
  rfl

/-- A control character by its code. -/
theorem escape?_code {c : Char} (hc : c.toNat < 16 ^ 4) (rest : List Char) :
    Toml.escape? ('u' :: (Hexadecimal.digits 4 c.toNat).map Char.toUpper ++ rest) =
      some (c, rest) := by
  have hread : Hexadecimal.code? 4 0
      ((Hexadecimal.digits 4 c.toNat).map Char.toUpper ++ rest) = some (c.toNat, rest) := by
    rw [Hexadecimal.code?_append_toUpper 4 0 0, Hexadecimal.code?_append_digits 4 0 0,
      Nat.mod_eq_of_lt hc, Nat.zero_mul, Nat.zero_add]
    rfl
  have hvalid : c.toNat.isValidChar := c.valid
  rw [List.cons_append, Toml.escape?, if_pos rfl, codeEscape?, hread]
  simp [hvalid]

theorem isTextChar_of_not_control {c : Char} (hc : isControl c = false) (hnewline : c ≠ '\n') :
    isTextChar c = true := by
  by_cases htab : c = '\t'
  · subst htab
    rfl
  · have hcode : 32 ≤ c.toNat ∧ c.toNat ≠ 127 := by simpa [isControl, htab, hnewline] using hc
    simp [isTextChar, hcode]

/-- A character is spelled by its escape, if it has one, and otherwise as it stands. -/
theorem spelling_escapeChar {spansLines : Bool} {run : ℕ} {c : Char} {cs ds : List Char}
    (hquote : c ≠ '"') (hcs : BodySpelling .basic spansLines 0 cs ds) :
    BodySpelling .basic spansLines run (c :: cs) (escapeChar spansLines c ++ ds) := by
  have hletter {l d : Char} (he : isBlank l = false ∧ l ≠ '\n' ∧ l ≠ '\r')
      (hl : l ≠ 'u' ∧ l ≠ 'U') (hd : letterEscape? l = some d) :
      BodySpelling .basic spansLines run (d :: cs) (['\\', l] ++ ds) :=
    .escape rfl he (escape?_letter hl hd) hcs
  unfold escapeChar
  split
  · rename_i hc
    subst hc
    exact hletter (by decide) (by decide) rfl
  split
  · rename_i hc
    subst hc
    exact hletter (by decide) (by decide) rfl
  split
  · rename_i hc
    subst hc
    cases spansLines with
    | false => exact @hletter 'n' '\n' (by decide) (by decide) rfl
    | true => exact .newline rfl hcs
  split
  · rename_i hc
    subst hc
    exact hletter (by decide) (by decide) rfl
  split
  · rename_i hc
    subst hc
    exact hletter (by decide) (by decide) rfl
  split
  · rename_i hc
    subst hc
    exact hletter (by decide) (by decide) rfl
  split
  · rename_i hcontrol
    refine .escape rfl (by decide) (escape?_code ?_) hcs
    simp only [isControl, Bool.and_eq_true, Bool.or_eq_true, decide_eq_true_eq,
      beq_iff_eq] at hcontrol
    omega
  · rename_i _ hnewline _ _ hslash hcontrol
    exact .plain hquote (fun h => hslash h.1)
      (isTextChar_of_not_control (Bool.eq_false_iff.2 hcontrol) hnewline) hcs

/-- A text with escapes is spelled between double quotes. -/
theorem spelling_escape (spansLines : Bool) (cs : List Char) : ∀ run,
    BodySpelling .basic spansLines run cs (escape spansLines run cs) := by
  induction cs with
  | nil => exact fun _ => .nil
  | cons c cs ih =>
    intro run
    rw [escape]
    split
    · rename_i hc
      subst hc
      by_cases hrun : run < if spansLines = true then 2 else 0
      · rw [if_pos hrun]
        cases spansLines with
        | false => exact absurd hrun (Nat.not_lt_zero run)
        | true => exact .mark rfl hrun (ih (run + 1))
      · rw [if_neg hrun]
        exact .escape rfl (by decide) (escape?_letter (by decide) rfl) (ih 0)
    · rename_i hquote
      exact spelling_escapeChar hquote (ih 0)

theorem le_longestRun {m : Char} (cs : List Char) : ∀ run, run ≤ longestRun m run cs := by
  induction cs with
  | nil => exact fun _ => le_rfl
  | cons c cs ih =>
    intro run
    rw [longestRun]
    split
    · exact (Nat.le_succ run).trans (ih (run + 1))
    · exact le_max_left _ _

/-- A text as it stands is spelled where no escape is needed. -/
theorem spelling_literal {q : Quote} {spansLines : Bool} {cs : List Char}
    (hcontrol : ∀ c ∈ cs, isControl c = false) (hslash : q = .basic → '\\' ∉ cs)
    (hlines : spansLines = false → '\n' ∉ cs) : ∀ run,
    longestRun q.mark run cs ≤ (if spansLines then 2 else 0) →
      BodySpelling q spansLines run cs cs := by
  induction cs with
  | nil => exact fun _ _ => .nil
  | cons c cs ih =>
    intro run hrun
    obtain ⟨hc, hcs⟩ := List.forall_mem_cons.1 hcontrol
    have ih := ih hcs (fun hq h => hslash hq (List.mem_cons_of_mem c h))
      (fun hs h => hlines hs (List.mem_cons_of_mem c h))
    rw [longestRun] at hrun
    split at hrun
    · rename_i hmark
      have hlt := (le_longestRun cs (run + 1)).trans hrun
      subst hmark
      cases spansLines with
      | false => exact absurd hlt (Nat.not_succ_le_zero run)
      | true => exact .mark rfl hlt (ih (run + 1) hrun)
    · rename_i hmark
      have hrest := ih 0 ((le_max_right _ _).trans hrun)
      by_cases hnewline : c = '\n'
      · subst hnewline
        cases spansLines with
        | false => exact absurd List.mem_cons_self (hlines rfl)
        | true => exact .newline rfl hrest
      · refine .plain hmark ?_ (isTextChar_of_not_control hc hnewline) hrest
        rintro ⟨rfl, hq⟩
        exact hslash hq List.mem_cons_self

/-- What a text is written as between its marks. -/
def body (q : Quoting) (cs : List Char) : List Char :=
  match q.quote with
  | .basic => escape q.spansLines 0 cs
  | .literal => cs

/-- **Between its marks a text is spelled**, if it needs no escape or may have one. -/
theorem spelling_body {q : Quoting} {cs : List Char} (h : q.quote = .basic ∨ q.holds cs = true) :
    BodySpelling q.quote q.spansLines 0 cs (q.body cs) := by
  obtain ⟨quote, spansLines⟩ := q
  cases quote with
  | basic => exact spelling_escape spansLines cs 0
  | literal =>
    have hholds := h.resolve_left Quote.noConfusion
    simp only [holds, Bool.and_eq_true, Bool.not_eq_true', Bool.or_eq_true, decide_eq_true_eq,
      List.any_eq_false, List.contains_eq_mem] at hholds
    obtain ⟨⟨⟨hcontrol, -⟩, hlines⟩, hrun⟩ := hholds
    refine spelling_literal (fun c hc => ?_) Quote.noConfusion (fun hs => ?_) 0 hrun
    · exact Bool.eq_false_iff.2 (hcontrol c hc)
    · change spansLines = false at hs
      simpa [hs] using hlines

/-- A text is written in a way that holds it or has escapes. -/
theorem choose_holds (cs : List Char) :
    (choose cs).quote = .basic ∨ (choose cs).holds cs = true := by
  rw [choose]
  cases h : plain.find? (·.holds cs) with
  | none => exact .inl rfl
  | some q => exact .inr (List.find?_some h :)

end Quoting

section Quoted

variable {q : Quote} {cs ds rest : List Char}

theorem text?_three : text? (q.mark :: q.mark :: q.mark :: cs) = body? q true (dropNewline cs) := by
  cases q <;> rfl

theorem text?_one (h : ∀ es, cs ≠ q.mark :: q.mark :: es) :
    text? (q.mark :: cs) = body? q false cs := by
  cases q with
  | basic =>
    change text? ('"' :: cs) = lineText? ('"' :: cs)
    unfold text?
    split
    · rename_i hcs
      cases hcs
      exact absurd rfl (h _)
    · rename_i hcs
      cases hcs
    · rfl
  | literal =>
    change text? ('\x27' :: cs) = lineText? ('\x27' :: cs)
    unfold text?
    split
    · rename_i hcs
      cases hcs
    · rename_i hcs
      cases hcs
      exact absurd rfl (h _)
    · rfl

theorem dropNewline_of_ne {c : Char} (hc : c ≠ '\n' ∧ c ≠ '\r') :
    dropNewline (c :: cs) = c :: cs := by
  have hnone : newline? (c :: cs) = none := by
    unfold newline?
    split <;> simp_all
  rw [dropNewline, hnone, Option.getD_none]

theorem not_break_of_isTextChar {c : Char} (hc : isTextChar c = true) : c ≠ '\n' ∧ c ≠ '\r' := by
  constructor
  · rintro rfl
    cases hc
  · rintro rfl
    cases hc

/-- A text without a line break does not begin with one. -/
theorem BodySpelling.dropNewline {run : ℕ} (h : BodySpelling q true run cs ds) (hcs : '\n' ∉ cs)
    (rest : List Char) : Toml.dropNewline (ds ++ (closingMarks q true ++ rest)) =
      ds ++ (closingMarks q true ++ rest) := by
  have hmark : q.mark ≠ '\n' ∧ q.mark ≠ '\r' := by cases q <;> decide
  cases h with
  | nil => exact dropNewline_of_ne hmark
  | mark => exact dropNewline_of_ne hmark
  | plain _ _ hc => exact dropNewline_of_ne (not_break_of_isTextChar hc)
  | newline => exact absurd List.mem_cons_self hcs
  | escape => exact dropNewline_of_ne (by decide)

/-- **A written text reads back**, in front of anything but a further mark. -/
theorem text?_write (cs rest : List Char) (hrest : ∀ q : Quote, rest.head? ≠ some q.mark) :
    text? ((Quoting.choose cs).write cs ++ rest) = some (cs, rest) := by
  have hbody := Quoting.spelling_body (Quoting.choose_holds cs)
  generalize Quoting.choose cs = q at *
  have hread := body?_of_spelling hbody (hrest q.quote)
  obtain ⟨quote, spansLines⟩ := q
  have hwrite : Quoting.write ⟨quote, spansLines⟩ cs = closingMarks quote spansLines ++
      (if spansLines && cs.contains '\n' then ['\n'] else []) ++
        Quoting.body ⟨quote, spansLines⟩ cs ++ closingMarks quote spansLines := rfl
  rw [hwrite]
  generalize Quoting.body ⟨quote, spansLines⟩ cs = ds at *
  cases spansLines with
  | false =>
    have hone : ∀ es,
        ds ++ (closingMarks quote false ++ rest) ≠ quote.mark :: quote.mark :: es := by
      intro es hes
      by_cases hds : ds = []
      · subst hds
        exact hrest quote (congrArg List.head? (List.cons.inj hes).2)
      · refine hbody.head_ne_mark hds (fun h => nomatch h) ?_
        rw [← List.head?_append_of_ne_nil _ hds, hes]
        rfl
    simpa [closingMarks] using (text?_one hone).trans hread
  | true =>
    by_cases hlines : '\n' ∈ cs
    · simpa [closingMarks, List.replicate, hlines] using text?_three.trans hread
    · have hdrop := hbody.dropNewline hlines rest
      rw [← hdrop] at hread
      simpa [closingMarks, List.replicate, hlines] using text?_three.trans hread

end Quoted

end Machining.Toml
