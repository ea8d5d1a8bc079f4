import Machining.Proofs.Program.Grammar

/-!
# Words as matches of a pattern

A word is what the pattern `[A-Z][+-]?\d*\.?\d+` matches first.  Matching goes from left to right,
takes an optional piece and one more repetition of a piece where it can, and comes back to do
without where the remaining pieces then find no match.

* `Pattern.search` — the first match at the start of a text, found by backtracking;
* `Word.search_word` — it is the word in front;
* `Word.cut_of_search`, `Word.cut_of_search_eq_none` — the cut takes the first match where there is
  one and moves on by a character where there is none.
-/

set_option autoImplicit false

namespace Machining

namespace Pattern

/-- A piece of a pattern: one character of a class, perhaps one, or as many as there are. -/
inductive Piece
  | one (p : Char → Bool)
  | optional (p : Char → Bool)
  | many (p : Char → Bool)

/-- A match and the text after it. -/
abbrev Found := Option (List Char × List Char)

/-- The match that starts with a character more. -/
def Found.push (c : Char) (f : Found) : Found := f.map fun m => (c :: m.1, m.2)

/-- Take one character of the class, then go on. -/
def take (p : Char → Bool) (next : List Char → Found) : List Char → Found
  | [] => none
  | c :: cs => if p c then (next cs).push c else none

/-- Take characters of the class while something follows them, then go on. -/
def takeMany (p : Char → Bool) (next : List Char → Found) : List Char → Found
  | [] => next []
  | c :: cs => (if p c then (takeMany p next cs).push c else none) <|> next (c :: cs)

/-- The first match of a pattern at the start of a text. -/
def search : List Piece → List Char → Found
  | [], cs => some ([], cs)
  | .one p :: ps, cs => take p (search ps) cs
  | .optional p :: ps, cs => take p (search ps) cs <|> search ps cs
  | .many p :: ps, cs => takeMany p (search ps) cs

/-- At least one character of the class. -/
def atLeastOne (p : Char → Bool) : List Piece := [.one p, .many p]

theorem search_many (p : Char → Bool) (cs : List Char) :
    search [.many p] cs = some (cs.takeWhile p, cs.dropWhile p) := by
  change takeMany p (search []) cs = _
  induction cs with
  | nil => rfl
  | cons c cs ih =>
    cases hc : p c
    · simp [takeMany, search, hc]
    · simp [takeMany, ih, Found.push, hc]

theorem search_atLeastOne_cons {p : Char → Bool} {c : Char} (cs : List Char) (hc : p c = true) :
    search (atLeastOne p) (c :: cs) = some (c :: cs.takeWhile p, cs.dropWhile p) := by
  change take p (search [.many p]) (c :: cs) = _
  simp [take, hc, search_many, Found.push]

theorem search_atLeastOne_eq_none {p : Char → Bool} {c : Char} (cs : List Char) (hc : p c = false) :
    search (atLeastOne p) (c :: cs) = none := by
  change take p (search [.many p]) (c :: cs) = _
  simp [take, hc]

end Pattern

namespace Word

open Pattern

/-- The characters of a sign. -/
def isSign (c : Char) : Bool := c == '+' || c == '-'

/-- Digits, perhaps a point, and digits. -/
def unsignedPattern : List Piece :=
  .many Text.isDecimalDigit :: .optional (· == '.') :: atLeastOne Text.isDecimalDigit

/-- A letter, perhaps a sign, digits, perhaps a point, and digits. -/
def wordPattern : List Piece := .one isLetter :: .optional isSign :: unsignedPattern

theorem isDecimalDigit_point : Text.isDecimalDigit '.' = false := by decide

/-- One digit more in front; without a number behind it, the digits alone are one. -/
theorem splitUnsigned?_cons_digit {c : Char} (cs : List Char)
    (hc : Text.isDecimalDigit c = true) : splitUnsigned? (c :: cs) =
      (Found.push c (splitUnsigned? cs) <|>
        some (c :: cs.takeWhile Text.isDecimalDigit, cs.dropWhile Text.isDecimalDigit)) := by
  unfold splitUnsigned? Found.push
  simp only [List.takeWhile_cons, List.dropWhile_cons, hc, if_true]
  cases cs.dropWhile Text.isDecimalDigit with
  | nil => cases cs.takeWhile Text.isDecimalDigit <;> simp
  | cons x after =>
    by_cases hx : x = '.'
    · subst hx
      cases hfraction : after.takeWhile Text.isDecimalDigit <;>
        cases cs.takeWhile Text.isDecimalDigit <;> simp [hfraction]
    · cases cs.takeWhile Text.isDecimalDigit <;> simp [hx]

/-- Where no digit stands, a number starts with its point. -/
theorem splitUnsigned?_cons_of_not {c : Char} (cs : List Char)
    (hc : Text.isDecimalDigit c = false) : splitUnsigned? (c :: cs) =
      if c = '.' then Found.push '.' (search (atLeastOne Text.isDecimalDigit) cs) else none := by
  unfold splitUnsigned?
  simp only [List.takeWhile_cons, List.dropWhile_cons, hc]
  by_cases hpoint : c = '.'
  · subst hpoint
    cases cs with
    | nil => simp [atLeastOne, search, take, Found.push]
    | cons d ds =>
      cases hd : Text.isDecimalDigit d
      · simp [search_atLeastOne_eq_none, hd, Found.push]
      · simp [search_atLeastOne_cons, hd, Found.push]
  · simp [hpoint]

/-- **The number without sign in front is the first match** of its pattern. -/
theorem search_unsigned (cs : List Char) : search unsignedPattern cs = splitUnsigned? cs := by
  change takeMany Text.isDecimalDigit
    (search (.optional (· == '.') :: atLeastOne Text.isDecimalDigit)) cs = _
  induction cs with
  | nil => rfl
  | cons c cs ih =>
    rw [takeMany, ih]
    cases hc : Text.isDecimalDigit c
    · rw [splitUnsigned?_cons_of_not cs hc]
      by_cases hpoint : c = '.'
      · simp [search, take, hpoint, search_atLeastOne_eq_none, isDecimalDigit_point]
      · simp [search, take, hpoint, search_atLeastOne_eq_none, hc]
    · have hpoint : c ≠ '.' := by
        rintro rfl
        exact absurd hc (by decide)
      rw [splitUnsigned?_cons_digit cs hc]
      simp [search, take, hpoint, search_atLeastOne_cons, hc]

theorem splitUnsigned?_sign {c : Char} (cs : List Char) (hc : isSign c = true) :
    splitUnsigned? (c :: cs) = none := by
  simp only [isSign, Bool.or_eq_true, beq_iff_eq] at hc
  rcases hc with rfl | rfl
  · exact splitUnsigned?_cons_of_not cs (by decide)
  · exact splitUnsigned?_cons_of_not cs (by decide)

/-- The number in front is the first match of its pattern. -/
theorem search_number (cs : List Char) :
    search (.optional isSign :: unsignedPattern) cs = splitNumber? cs := by
  simp only [search, search_unsigned]
  cases cs with
  | nil => rfl
  | cons c cs =>
    cases hc : isSign c
    · have hne : ¬ (c = '+' ∨ c = '-') := by simpa [isSign] using hc
      simp [take, hc, splitNumber?, hne]
    · have hor : c = '+' ∨ c = '-' := by simpa [isSign] using hc
      simp [take, hc, splitNumber?, hor, splitUnsigned?_sign, search_unsigned, Found.push]

/-- **The word in front is the first match** of the pattern of words. -/
theorem search_word (cs : List Char) : search wordPattern cs =
    (split? cs).map fun found => (found.1.toList, found.2) := by
  change take isLetter (search (.optional isSign :: unsignedPattern)) cs = _
  cases cs with
  | nil => rfl
  | cons c cs =>
    rw [take, search_number, split?]
    split
    · simp [Found.push, WordText.toList, Function.comp_def]
    · rfl

/-- **Where the pattern matches, the cut takes its first match** and goes on after it. -/
theorem cut_of_search {cs n rest : List Char} {c : Char}
    (h : search wordPattern cs = some (c :: n, rest)) :
    cut cs = ⟨([], ⟨c, n⟩) :: (cut rest).words, (cut rest).tail⟩ := by
  rw [search_word] at h
  obtain ⟨⟨w, r⟩, hsplit, hfound⟩ := Option.map_eq_some_iff.1 h
  simp only [WordText.toList, Prod.mk.injEq, List.cons.injEq] at hfound
  obtain ⟨⟨rfl, rfl⟩, rfl⟩ := hfound
  exact cut_of_split? hsplit

/-- **Where it does not match, the cut moves on** by one character. -/
theorem cut_of_search_eq_none {x : Char} {xs : List Char}
    (h : search wordPattern (x :: xs) = none) : cut (x :: xs) = (cut xs).cons x := by
  rw [search_word, Option.map_eq_none_iff] at h
  rw [cut]
  split
  · rename_i hsplit
    rw [h] at hsplit
    cases hsplit
  · rfl

end Word

end Machining
