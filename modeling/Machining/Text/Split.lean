/-!
# Splitting texts

A text cut at every occurrence of a separator.

* `Text.join_split` — nothing but the separators is lost.
-/

set_option autoImplicit false

namespace Machining.Text

/-- What stands between the separators; a text without one is a single piece. -/
def split (separator : Char) : List Char → List (List Char)
  | [] => [[]]
  | c :: cs =>
    if c = separator then [] :: split separator cs
    else match split separator cs with
      | [] => [[c]]
      | l :: ls => (c :: l) :: ls

/-- Pieces with separators between them. -/
def join (separator : Char) : List (List Char) → List Char
  | [] => []
  | [l] => l
  | l :: m :: ls => l ++ separator :: join separator (m :: ls)

theorem split_ne_nil (separator : Char) (cs : List Char) : split separator cs ≠ [] := by
  cases cs with
  | nil => simp [split]
  | cons c cs =>
    unfold split
    split
    · simp
    · split <;> simp

theorem split_cons_self (separator : Char) (cs : List Char) :
    split separator (separator :: cs) = [] :: split separator cs := by
  rw [split, if_pos rfl]

theorem split_cons_of_ne {separator c : Char} (hc : c ≠ separator) (cs : List Char) :
    split separator (c :: cs) = (split separator cs).modifyHead (c :: ·) := by
  obtain ⟨l, ls, hsplit⟩ := List.exists_cons_of_ne_nil (split_ne_nil separator cs)
  rw [split, if_neg hc, hsplit]
  rfl

theorem join_cons_cons (separator c : Char) (l : List Char) (ls : List (List Char)) :
    join separator ((c :: l) :: ls) = c :: join separator (l :: ls) := by
  cases ls <;> rfl

/-- **Joining the pieces gives back the text.** -/
theorem join_split (separator : Char) (cs : List Char) :
    join separator (split separator cs) = cs := by
  induction cs with
  | nil => rfl
  | cons c cs ih =>
    obtain ⟨l, ls, hsplit⟩ := List.exists_cons_of_ne_nil (split_ne_nil separator cs)
    by_cases hc : c = separator
    · rw [hc, split_cons_self, hsplit, join, ← hsplit, ih, List.nil_append]
    · rw [split_cons_of_ne hc, hsplit, List.modifyHead_cons, join_cons_cons, ← hsplit, ih]

end Machining.Text
