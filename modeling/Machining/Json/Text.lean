import Machining.Text.Hexadecimal

/-!
# Quoted text

A text in double quotes.  Writing escapes the quote, the backslash and the control characters
below the space, the common ones by a letter and the others by their code in four hexadecimal
digits.

Reading is done in two steps.  `unquote?` undoes the escapes and gives the codes between the
quotes; an escape can stand for half of a character beyond the first plane, so these need not be
characters yet.  `joinHalves?` puts a high and a low half together and refuses a half that stands
alone.
-/

set_option autoImplicit false

namespace Machining.Json

/-- A character as it is written inside quotes. -/
def escapeChar (c : Char) : List Char :=
  if c = '"' then ['\\', '"']
  else if c = '\\' then ['\\', '\\']
  else if c = '\x08' then ['\\', 'b']
  else if c = '\t' then ['\\', 't']
  else if c = '\n' then ['\\', 'n']
  else if c = '\x0c' then ['\\', 'f']
  else if c = '\r' then ['\\', 'r']
  else if c.toNat < 32 then '\\' :: 'u' :: Hexadecimal.digits 4 c.toNat
  else [c]

/-- A text in quotes. -/
def quote (s : String) : List Char := '"' :: s.toList.flatMap escapeChar ++ ['"']

/-- The code of an escape by a letter. -/
def letterEscape? (c : Char) : Option Nat :=
  if c = '"' ∨ c = '\\' ∨ c = '/' then some c.toNat
  else if c = 'b' then some 8
  else if c = 'f' then some 12
  else if c = 'n' then some 10
  else if c = 'r' then some 13
  else if c = 't' then some 9
  else none

/-- The code of an escape, after its backslash, and the rest. -/
def escape? : List Char → Option (Nat × List Char)
  | [] => none
  | c :: cs => if c = 'u' then Hexadecimal.code? 4 0 cs else (letterEscape? c).map fun e => (e, cs)

theorem length_of_escape? {cs rest : List Char} {n : Nat} (h : escape? cs = some (n, rest)) :
    rest.length < cs.length := by
  unfold escape? at h
  split at h
  · cases h
  · simp only [List.length_cons]
    split at h
    · have := Hexadecimal.length_of_code? h
      omega
    · simp only [Option.map_eq_some_iff, Prod.mk.injEq] at h
      obtain ⟨_, _, _, rfl⟩ := h
      omega

/-- The codes up to the closing quote, escapes undone, and the rest. -/
def unquote? (cs : List Char) : Option (List Nat × List Char) :=
  match cs with
  | [] => none
  | c :: cs =>
    if c = '"' then some ([], cs)
    else if c = '\\' then
      match _h : escape? cs with
      | none => none
      | some (n, rest) => (unquote? rest).map fun (codes, r) => (n :: codes, r)
    else if c.toNat < 32 then none
    else (unquote? cs).map fun (codes, r) => (c.toNat :: codes, r)
termination_by cs.length
decreasing_by
  · have := length_of_escape? _h
    simp only [List.length_cons]
    omega
  · simp

theorem length_of_unquote? {cs rest : List Char} {codes : List Nat}
    (h : unquote? cs = some (codes, rest)) : rest.length < cs.length := by
  fun_induction unquote? cs generalizing codes rest with
  | case1 => cases h
  | case2 cs =>
    simp only [Option.some.injEq, Prod.mk.injEq] at h
    rw [← h.2]
    simp
  | case3 => cases h
  | case4 cs n r hr _ ih =>
    simp only [Option.map_eq_some_iff, Prod.mk.injEq, Prod.exists] at h
    obtain ⟨s', r', hs, _, rfl⟩ := h
    have h1 := ih hs
    have h2 := length_of_escape? hr
    simp only [List.length_cons]
    omega
  | case5 => cases h
  | case6 c cs _ _ _ ih =>
    simp only [Option.map_eq_some_iff, Prod.mk.injEq, Prod.exists] at h
    obtain ⟨s', r', hs, _, rfl⟩ := h
    have h1 := ih hs
    simp only [List.length_cons]
    omega

/-- Whether a code is the first half of a character. -/
def isHighHalf (n : Nat) : Bool := decide (0xD800 ≤ n) && decide (n < 0xDC00)

/-- Whether a code is the second half of a character. -/
def isLowHalf (n : Nat) : Bool := decide (0xDC00 ≤ n) && decide (n < 0xE000)

/-- The character of two halves. -/
def joinHalf (high low : Nat) : Char :=
  Char.ofNat (0x10000 + (high - 0xD800) * 0x400 + (low - 0xDC00))

/-- The characters of a list of codes, unless a half stands alone. -/
def joinHalves? : List Nat → Option (List Char)
  | [] => some []
  | [n] => if isHighHalf n || isLowHalf n then none else some [Char.ofNat n]
  | high :: low :: codes =>
    if isHighHalf high then
      if isLowHalf low then (joinHalves? codes).map (joinHalf high low :: ·) else none
    else if isLowHalf high then none
    else (joinHalves? (low :: codes)).map (Char.ofNat high :: ·)

end Machining.Json
