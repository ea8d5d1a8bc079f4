import Machining.Json.Text
import Machining.Proofs.Text.Hexadecimal

/-!
# Spellings of quoted texts

Inside quotes a character can be written in several ways: as it stands, by a letter or by its code,
and beyond the first plane by two codes.  A text is spelled character by character, and every
spelling of a text is read as the text.

* `CharSpelling`, `TextSpelling` — the ways of writing a character and a text;
* `unquoteText?_of_spelling` — every spelling is read as its text;
* `textSpelling_escapeChar` — the way in which texts are written is a spelling.
-/

set_option autoImplicit false

namespace Machining.Json

/-- The characters that letters stand for after a backslash. -/
def letterEscapes : List (Char × Char) :=
  [('"', '"'), ('\\', '\\'), ('/', '/'), ('b', '\x08'), ('f', '\x0c'), ('n', '\n'), ('r', '\r'),
    ('t', '\t')]

/-- The ways of writing a character inside quotes: as it stands, unless it is a quote, a backslash
or a control character; by a letter; by its code; and by the codes of two halves. -/
inductive CharSpelling (c : Char) : List Char → Prop
  | plain (hcontrol : 32 ≤ c.toNat) (hquote : c ≠ '"') (hslash : c ≠ '\\') : CharSpelling c [c]
  | letter {l : Char} (h : (l, c) ∈ letterEscapes) : CharSpelling c ['\\', l]
  | code {ds : List Char} (h : Hexadecimal.code? 4 0 ds = some (c.toNat, [])) :
      CharSpelling c ('\\' :: 'u' :: ds)
  | halves {high low : ℕ} {ds es : List Char}
      (hds : Hexadecimal.code? 4 0 ds = some (high, []))
      (hes : Hexadecimal.code? 4 0 es = some (low, [])) (hhigh : isHighHalf high = true)
      (hlow : isLowHalf low = true) (hc : joinHalf high low = c) :
      CharSpelling c ('\\' :: 'u' :: ds ++ '\\' :: 'u' :: es)

/-- The ways of writing a text inside quotes. -/
inductive TextSpelling : List Char → List Char → Prop
  | nil : TextSpelling [] []
  | cons {c : Char} {cs ds es : List Char} (hc : CharSpelling c ds) (hcs : TextSpelling cs es) :
      TextSpelling (c :: cs) (ds ++ es)

/-- The text up to the closing quote and what follows it, unless a half stands alone. -/
def unquoteText? (cs : List Char) : Option (List Char × List Char) :=
  (unquote? cs).bind fun p => (joinHalves? p.1).map (·, p.2)

/-! ## One character -/

theorem isHalf_toNat (c : Char) : isHighHalf c.toNat = false ∧ isLowHalf c.toNat = false := by
  have hvalid : c.toNat < 0xD800 ∨ 0xDFFF < c.toNat ∧ c.toNat < 0x110000 := c.valid
  simp only [isHighHalf, isLowHalf, Bool.and_eq_false_iff, decide_eq_false_iff_not]
  omega

/-- The code of a character stands for itself. -/
theorem joinHalves?_toNat (c : Char) (codes : List ℕ) :
    joinHalves? (c.toNat :: codes) = (joinHalves? codes).map (c :: ·) := by
  obtain ⟨hhigh, hlow⟩ := isHalf_toNat c
  cases codes with
  | nil => simp [joinHalves?, hhigh, hlow]
  | cons n codes => simp [joinHalves?, hhigh, hlow]

theorem joinHalves?_halves {high low : ℕ} (hhigh : isHighHalf high = true)
    (hlow : isLowHalf low = true) (codes : List ℕ) :
    joinHalves? (high :: low :: codes) = (joinHalves? codes).map (joinHalf high low :: ·) := by
  rw [joinHalves?, if_pos hhigh, if_pos hlow]

theorem unquote?_escape {cs rest : List Char} {n : ℕ} (h : escape? cs = some (n, rest)) :
    unquote? ('\\' :: cs) = (unquote? rest).map fun p => (n :: p.1, p.2) := by
  rw [unquote?, if_neg (by decide), if_pos rfl]
  split
  · rename_i hnone
    cases h.symm.trans hnone
  · rename_i hsome
    cases h.symm.trans hsome
    rfl

theorem escape?_code {ds : List Char} {n : ℕ} (h : Hexadecimal.code? 4 0 ds = some (n, []))
    (rest : List Char) : escape? ('u' :: ds ++ rest) = some (n, rest) := by
  rw [List.cons_append, escape?, if_pos rfl, Hexadecimal.code?_append h, List.nil_append]

theorem letterEscape?_of_mem {l c : Char} (h : (l, c) ∈ letterEscapes) :
    l ≠ 'u' ∧ letterEscape? l = some c.toNat := by
  have hall : ∀ e ∈ letterEscapes, e.1 ≠ 'u' ∧ letterEscape? e.1 = some e.2.toNat := by decide
  exact hall (l, c) h

/-- Codes that are one character stand for it in front of others. -/
theorem unquoteText?_of_codes {c : Char} (ns : List ℕ) {ds rest : List Char}
    (hunquote : unquote? (ds ++ rest) = (unquote? rest).map fun p => (ns ++ p.1, p.2))
    (hjoin : ∀ codes, joinHalves? (ns ++ codes) = (joinHalves? codes).map (c :: ·)) :
    unquoteText? (ds ++ rest) = (unquoteText? rest).map fun p => (c :: p.1, p.2) := by
  unfold unquoteText?
  rw [hunquote]
  cases unquote? rest with
  | none => rfl
  | some p => cases h : joinHalves? p.1 <;> simp [hjoin, h]

/-- **A spelling of a character is read as the character.** -/
theorem unquoteText?_append {c : Char} {ds : List Char} (hc : CharSpelling c ds)
    (rest : List Char) : unquoteText? (ds ++ rest) =
      (unquoteText? rest).map fun p => (c :: p.1, p.2) := by
  cases hc with
  | plain hcontrol hquote hslash =>
    refine unquoteText?_of_codes [c.toNat] ?_ (joinHalves?_toNat c)
    rw [List.singleton_append, unquote?, if_neg hquote, if_neg hslash, if_neg (by omega)]
    rfl
  | @letter l h =>
    obtain ⟨hl, hcode⟩ := letterEscape?_of_mem h
    refine unquoteText?_of_codes [c.toNat] ?_ (joinHalves?_toNat c)
    have hescape : escape? (l :: rest) = some (c.toNat, rest) := by
      rw [escape?, if_neg hl, hcode, Option.map_some]
    exact unquote?_escape hescape
  | code h =>
    exact unquoteText?_of_codes [c.toNat] (unquote?_escape (escape?_code h rest))
      (joinHalves?_toNat c)
  | @halves high low ds es hds hes hhigh hlow hc =>
    refine unquoteText?_of_codes [high, low] ?_ ?_
    · rw [List.append_assoc]
      refine (unquote?_escape (escape?_code hds _)).trans ?_
      refine (congrArg _ (unquote?_escape (escape?_code hes rest))).trans ?_
      rw [Option.map_map]
      rfl
    · intro codes
      rw [← hc]
      exact joinHalves?_halves hhigh hlow codes

/-! ## Whole texts -/

/-- **A spelling of a text, up to the closing quote, is read as the text.** -/
theorem unquoteText?_of_spelling {cs ds : List Char} (h : TextSpelling cs ds) (rest : List Char) :
    unquoteText? (ds ++ '"' :: rest) = some (cs, rest) := by
  induction h with
  | nil =>
    rw [List.nil_append, unquoteText?, unquote?, if_pos rfl]
    rfl
  | cons hc _ ih => rw [List.append_assoc, unquoteText?_append hc, ih, Option.map_some]

/-- A character is written in one of its ways. -/
theorem charSpelling_escapeChar (c : Char) : CharSpelling c (escapeChar c) := by
  unfold escapeChar
  iterate 7
    split
    · rename_i h
      exact .letter (by rw [h]; decide)
  split
  · rename_i h
    exact .code (Hexadecimal.code?_digits (by omega))
  · rename_i hquote hslash _ _ _ _ _ hcontrol
    exact .plain (by omega) hquote hslash

/-- **A text is written in one of its ways.** -/
theorem textSpelling_escapeChar (cs : List Char) : TextSpelling cs (cs.flatMap escapeChar) := by
  induction cs with
  | nil => exact .nil
  | cons c cs ih => exact .cons (charSpelling_escapeChar c) ih

end Machining.Json
