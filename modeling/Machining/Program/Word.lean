import Machining.Scalar
import Machining.Decimal.Reading
import Machining.Text.DecimalDigit

/-!
# Words

A word is a capital letter and a number: an optional sign, then digits, which may have a point
before the last run of them.  Words need no separators, so a text is cut at the words found in it
from left to right, each as long as possible; what lies between them are gaps.

* `Word.cut` — the words of a text with the gap before each, and what is left after the last;
* `Cut.toList_cut` — cutting loses nothing.
-/

set_option autoImplicit false

namespace Machining

/-- A letter with a value. -/
structure Word (α : Type) where
  letter : Char
  value : α
  deriving Repr, BEq, DecidableEq, Inhabited

/-- A word as it is written. -/
structure WordText where
  letter : Char
  number : List Char
  deriving Repr, DecidableEq, Inhabited

/-- The characters of a word. -/
def WordText.toList (w : WordText) : List Char := w.letter :: w.number

/-- A text cut at its words: each word with the gap before it, and what is left after the last. -/
structure Cut where
  words : List (List Char × WordText)
  tail : List Char
  deriving Repr, DecidableEq, Inhabited

namespace Cut

/-- The text that was cut. -/
def toList (c : Cut) : List Char :=
  c.words.flatMap (fun (gap, w) => gap ++ w.toList) ++ c.tail

/-- Put a character in front. -/
def cons (x : Char) (c : Cut) : Cut :=
  match c.words with
  | [] => ⟨[], x :: c.tail⟩
  | (gap, w) :: ws => ⟨(x :: gap, w) :: ws, c.tail⟩

theorem toList_cons (x : Char) (c : Cut) : (c.cons x).toList = x :: c.toList := by
  rcases c with ⟨_ | ⟨⟨gap, w⟩, ws⟩, tail⟩ <;> simp [cons, toList]

end Cut

namespace Word

/-- The letters that open a word. -/
def isLetter (c : Char) : Bool := decide ('A' ≤ c) && decide (c ≤ 'Z')

/-- The unsigned number in front and the rest: digits, a point and digits, or digits alone.  The
digits may be of any script. -/
def splitUnsigned? (cs : List Char) : Option (List Char × List Char) :=
  let whole := cs.takeWhile Text.isDecimalDigit
  let rest := cs.dropWhile Text.isDecimalDigit
  match rest with
  | '.' :: after =>
    match after.takeWhile Text.isDecimalDigit with
    | [] => if whole.isEmpty then none else some (whole, rest)
    | fraction => some (whole ++ '.' :: fraction, after.dropWhile Text.isDecimalDigit)
  | _ => if whole.isEmpty then none else some (whole, rest)

/-- The number in front, with its sign, and the rest. -/
def splitNumber? : List Char → Option (List Char × List Char)
  | [] => none
  | c :: cs =>
    if c = '+' ∨ c = '-' then (splitUnsigned? cs).map fun (n, rest) => (c :: n, rest)
    else splitUnsigned? (c :: cs)

theorem splitUnsigned?_append {cs n rest : List Char} (h : splitUnsigned? cs = some (n, rest)) :
    n ++ rest = cs := by
  have hw := List.takeWhile_append_dropWhile (p := Text.isDecimalDigit) (l := cs)
  unfold splitUnsigned? at h
  simp only at h
  split at h
  · rename_i after hr
    have hf := List.takeWhile_append_dropWhile (p := Text.isDecimalDigit) (l := after)
    split at h
    · split at h
      · cases h
      · simp only [Option.some.injEq, Prod.mk.injEq] at h
        rw [← h.1, ← h.2, hw]
    · simp only [Option.some.injEq, Prod.mk.injEq] at h
      rw [← h.1, ← h.2, List.append_assoc, List.cons_append, hf, ← hr, hw]
  · split at h
    · cases h
    · simp only [Option.some.injEq, Prod.mk.injEq] at h
      rw [← h.1, ← h.2, hw]

theorem splitNumber?_append {cs n rest : List Char} (h : splitNumber? cs = some (n, rest)) :
    n ++ rest = cs := by
  unfold splitNumber? at h
  split at h
  · cases h
  · split at h
    · simp only [Option.map_eq_some_iff, Prod.mk.injEq, Prod.exists] at h
      obtain ⟨m, r, hm, rfl, rfl⟩ := h
      rw [List.cons_append, splitUnsigned?_append hm]
    · exact splitUnsigned?_append h

/-- The word in front and the rest. -/
def split? : List Char → Option (WordText × List Char)
  | [] => none
  | c :: cs =>
    if isLetter c then (splitNumber? cs).map fun (n, rest) => (⟨c, n⟩, rest) else none

theorem split?_append {cs rest : List Char} {w : WordText} (h : split? cs = some (w, rest)) :
    w.toList ++ rest = cs := by
  unfold split? at h
  split at h
  · cases h
  · split at h
    · simp only [Option.map_eq_some_iff, Prod.mk.injEq, Prod.exists] at h
      obtain ⟨n, r, hn, rfl, rfl⟩ := h
      rw [WordText.toList, List.cons_append, splitNumber?_append hn]
    · cases h

theorem length_lt_of_split? {cs rest : List Char} {w : WordText}
    (h : split? cs = some (w, rest)) : rest.length < cs.length := by
  rw [← split?_append h]
  simp only [WordText.toList, List.length_append, List.length_cons]
  omega

/-- A text cut at the words found in it from left to right. -/
def cut (cs : List Char) : Cut :=
  match h : split? cs with
  | some (w, rest) =>
    have := length_lt_of_split? h
    let c := cut rest
    ⟨([], w) :: c.words, c.tail⟩
  | none =>
    match cs with
    | [] => ⟨[], []⟩
    | x :: xs => (cut xs).cons x
termination_by cs.length

/-- **Cutting loses nothing.** -/
theorem toList_cut (cs : List Char) : (cut cs).toList = cs := by
  fun_induction cut cs with
  | case1 cs w rest h _ c ih =>
    rw [← split?_append h, ← ih]
    simp [Cut.toList, c]
  | case2 h => rfl
  | case3 x xs h ih => rw [Cut.toList_cons, ih]

/-- The value of an unsigned number text with ASCII digits. -/
def unsignedValue? {α : Type} [Scalar α] (cs : List Char) : Option α :=
  let (whole, cs) := Numeral.splitDigits cs
  let (fraction, cs) := Numeral.splitFraction cs
  if cs.isEmpty && !(whole.isEmpty && fraction.isEmpty) then
    some (OfScientific.ofScientific (Numeral.value (whole ++ fraction)) true fraction.length)
  else none

/-- The value of a number text; none if a digit is not an ASCII one. -/
def value? {α : Type} [Scalar α] (cs : List Char) : Option α :=
  let (negative, ds) := Numeral.splitSign cs
  (unsignedValue? ds).map fun v => if negative then -v else v

/-- The word a text stands for. -/
def ofText? {α : Type} [Scalar α] (w : WordText) : Option (Word α) :=
  (value? w.number).map (Word.mk w.letter)

end Word

end Machining
