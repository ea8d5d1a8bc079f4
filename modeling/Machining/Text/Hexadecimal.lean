/-!
# Hexadecimal digits

Numbers in base sixteen with a fixed count of digits: written in lower case, read in either case.

* `Hexadecimal.value?_digit` — a written digit reads back.
-/

set_option autoImplicit false

namespace Machining.Hexadecimal

/-- The character of a digit below sixteen, in lower case. -/
def digit (d : Nat) : Char := if d < 10 then Char.ofNat (48 + d) else Char.ofNat (87 + d)

/-- The lowest `n` digits of a number, most significant first. -/
def digits : Nat → Nat → List Char
  | 0, _ => []
  | n + 1, v => digits n (v / 16) ++ [digit (v % 16)]

/-- The value of a digit. -/
def value? (c : Char) : Option Nat :=
  if '0' ≤ c ∧ c ≤ '9' then some (c.toNat - 48)
  else if 'a' ≤ c ∧ c ≤ 'f' then some (c.toNat - 87)
  else if 'A' ≤ c ∧ c ≤ 'F' then some (c.toNat - 55)
  else none

/-- The number that `n` digits in front spell after the digits of `v`, and the rest. -/
def code? : Nat → Nat → List Char → Option (Nat × List Char)
  | 0, v, cs => some (v, cs)
  | _ + 1, _, [] => none
  | n + 1, v, c :: cs => (value? c).bind fun d => code? n (16 * v + d) cs

theorem value?_digit (d : Nat) (h : d < 16) : value? (digit d) = some d := by
  revert d; decide

theorem length_digits (n v : Nat) : (digits n v).length = n := by
  induction n generalizing v with
  | zero => rfl
  | succ n ih => simp [digits, ih]

theorem length_of_code? {n v k : Nat} {cs rest : List Char} (h : code? n v cs = some (k, rest)) :
    rest.length + n = cs.length := by
  induction n generalizing v cs with
  | zero =>
    simp only [code?, Option.some.injEq, Prod.mk.injEq] at h
    rw [h.2]; rfl
  | succ n ih =>
    cases cs with
    | nil => cases h
    | cons c cs =>
      simp only [code?, Option.bind_eq_some_iff] at h
      obtain ⟨d, _, hd⟩ := h
      have := ih hd
      simp only [List.length_cons]
      omega

end Machining.Hexadecimal
