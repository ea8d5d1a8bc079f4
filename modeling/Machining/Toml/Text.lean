import Machining.Text.Hexadecimal

/-!
# Blanks, comments and quoted texts of TOML

A text stands in double quotes, with escapes, or in single quotes, as it is.  Three marks open a
text that may span lines: a line break right after them is dropped, and in double quotes a
backslash at the end of a line drops the break and all blanks after it.  Such a text may hold one
or two marks in a row, also right before the closing three.

Control characters other than the tab may stand nowhere, and lines end with a line feed, which a
carriage return may precede.
-/

set_option autoImplicit false

namespace Machining.Toml

/-- The characters between the parts of a line. -/
def isBlank (c : Char) : Bool := c == ' ' || c == '\t'

/-- The characters of comments and texts. -/
def isTextChar (c : Char) : Bool :=
  c == '\t' || (decide (32 ≤ c.toNat) && c.toNat != 127)

/-- The text after the blanks in front. -/
def skipBlanks (cs : List Char) : List Char := cs.dropWhile isBlank

/-- The text after a line break, if one comes first. -/
def newline? : List Char → Option (List Char)
  | '\n' :: cs => some cs
  | '\r' :: '\n' :: cs => some cs
  | _ => none

/-- The text after a comment, if one comes first. -/
def skipComment : List Char → List Char
  | '#' :: cs => cs.dropWhile isTextChar
  | cs => cs

/-- The text after the end of a line: blanks and a comment, then a line break or nothing. -/
def lineEnd? (cs : List Char) : Option (List Char) :=
  match skipComment (skipBlanks cs) with
  | [] => some []
  | cs => newline? cs

/-- The text after blanks, line breaks and comments, starting within a comment or not. -/
def skipSpace : Bool → List Char → List Char
  | _, [] => []
  | _, '\n' :: cs => skipSpace false cs
  | _, '\r' :: '\n' :: cs => skipSpace false cs
  | true, c :: cs => if isTextChar c then skipSpace true cs else c :: cs
  | false, c :: cs =>
    if isBlank c then skipSpace false cs
    else if c = '#' then skipSpace true cs
    else c :: cs

/-- The text after blanks and line breaks. -/
def skipBreaks : List Char → List Char
  | [] => []
  | '\n' :: cs => skipBreaks cs
  | '\r' :: '\n' :: cs => skipBreaks cs
  | c :: cs => if isBlank c then skipBreaks cs else c :: cs

/-- How a text is quoted: in double quotes with escapes, or in single quotes without. -/
inductive Quote
  | basic
  | literal
  deriving Repr, DecidableEq, Inhabited

/-- The mark around a text. -/
def Quote.mark : Quote → Char
  | basic => '"'
  | literal => '\x27'

/-- The character of an escape by a letter. -/
def letterEscape? (c : Char) : Option Char :=
  if c = '"' ∨ c = '\\' then some c
  else if c = 'b' then some '\x08'
  else if c = 't' then some '\t'
  else if c = 'n' then some '\n'
  else if c = 'f' then some '\x0c'
  else if c = 'r' then some '\r'
  else none

/-- The character with the code that `n` hexadecimal digits in front spell, and the rest. -/
def codeEscape? (n : Nat) (cs : List Char) : Option (Char × List Char) :=
  match Hexadecimal.code? n 0 cs with
  | none => none
  | some (k, rest) => if k.isValidChar then some (Char.ofNat k, rest) else none

/-- The character of an escape, after its backslash, and the rest. -/
def escape? : List Char → Option (Char × List Char)
  | [] => none
  | c :: cs =>
    if c = 'u' then codeEscape? 4 cs
    else if c = 'U' then codeEscape? 8 cs
    else (letterEscape? c).map fun e => (e, cs)

/-- The text after the break at the end of a line that a backslash continues. -/
def continuation? (cs : List Char) : Option (List Char) :=
  (newline? (skipBlanks cs)).map skipBreaks

theorem length_skipBlanks (cs : List Char) : (skipBlanks cs).length ≤ cs.length :=
  (List.dropWhile_sublist _).length_le

theorem length_of_newline? {cs rest : List Char} (h : newline? cs = some rest) :
    rest.length < cs.length := by
  unfold newline? at h
  split at h
  · simp only [Option.some.injEq] at h
    simp [h]
  · simp only [Option.some.injEq] at h
    simp only [← h, List.length_cons]
    omega
  · cases h

theorem length_skipBreaks (cs : List Char) : (skipBreaks cs).length ≤ cs.length := by
  fun_induction skipBreaks cs with
  | case1 => exact Nat.le_refl _
  | case2 cs ih => simp only [List.length_cons]; omega
  | case3 cs ih => simp only [List.length_cons]; omega
  | case4 c cs _ _ _ ih => simp only [List.length_cons]; omega
  | case5 => exact Nat.le_refl _

theorem length_of_codeEscape? {n : Nat} {cs rest : List Char} {c : Char}
    (h : codeEscape? n cs = some (c, rest)) : rest.length ≤ cs.length := by
  unfold codeEscape? at h
  split at h
  · cases h
  · rename_i k r hk
    have := Hexadecimal.length_of_code? hk
    split at h
    · simp only [Option.some.injEq, Prod.mk.injEq] at h
      rw [← h.2]
      omega
    · cases h

theorem length_of_escape? {cs rest : List Char} {c : Char} (h : escape? cs = some (c, rest)) :
    rest.length < cs.length := by
  unfold escape? at h
  split at h
  · cases h
  · simp only [List.length_cons]
    split at h
    · have := length_of_codeEscape? h
      omega
    · split at h
      · have := length_of_codeEscape? h
        omega
      · simp only [Option.map_eq_some_iff, Prod.mk.injEq] at h
        obtain ⟨_, _, _, rfl⟩ := h
        omega

theorem length_of_continuation? {cs rest : List Char} (h : continuation? cs = some rest) :
    rest.length < cs.length := by
  simp only [continuation?, Option.map_eq_some_iff] at h
  obtain ⟨r, hr, rfl⟩ := h
  have h1 := length_of_newline? hr
  have h2 := length_skipBlanks cs
  have h3 := length_skipBreaks r
  omega

/-- The end of a text that spans lines, where marks come first, the first taken away: the marks
that still belong to the text, and the rest.  Nothing where the text goes on. -/
def closing? (mark : Char) (cs : List Char) : Option (List Char × List Char) :=
  let further := cs.takeWhile (· == mark)
  if further.length < 2 then none else some (further.drop 2, cs.dropWhile (· == mark))

/-- The characters up to the closing mark, or the closing three, and the rest. -/
def body? (q : Quote) (spansLines : Bool) (cs : List Char) : Option (List Char × List Char) :=
  match cs with
  | [] => none
  | c :: cs =>
    if c = q.mark then
      if spansLines then
        match closing? q.mark cs with
        | some (marks, rest) => if marks.length ≤ 2 then some (marks, rest) else none
        | none => (body? q spansLines cs).map fun (s, r) => (c :: s, r)
      else some ([], cs)
    else if c = '\\' ∧ q = .basic then
      match _h : (if spansLines then continuation? cs else none) with
      | some rest => body? q spansLines rest
      | none =>
        match _h' : escape? cs with
        | none => none
        | some (e, rest) => (body? q spansLines rest).map fun (s, r) => (e :: s, r)
    else if isTextChar c then (body? q spansLines cs).map fun (s, r) => (c :: s, r)
    else if spansLines then
      match _h : newline? (c :: cs) with
      | none => none
      | some rest => (body? q spansLines rest).map fun (s, r) => ('\n' :: s, r)
    else none
termination_by cs.length
decreasing_by
  · simp
  · split at _h
    · have := length_of_continuation? _h
      simp only [List.length_cons]
      omega
    · cases _h
  · have := length_of_escape? _h'
    simp only [List.length_cons]
    omega
  · simp
  · exact length_of_newline? _h

/-- The text after a line break, if one comes first, else all of it. -/
def dropNewline (cs : List Char) : List Char := (newline? cs).getD cs

/-- A quoted text on one line and the rest. -/
def lineText? : List Char → Option (List Char × List Char)
  | '"' :: cs => body? .basic false cs
  | '\x27' :: cs => body? .literal false cs
  | _ => none

/-- A quoted text and the rest. -/
def text? : List Char → Option (List Char × List Char)
  | '"' :: '"' :: '"' :: cs => body? .basic true (dropNewline cs)
  | '\x27' :: '\x27' :: '\x27' :: cs => body? .literal true (dropNewline cs)
  | cs => lineText? cs

end Machining.Toml
