import Mathlib
import Machining.Text.Hexadecimal

/-!
# Hexadecimal digits read back

A fixed number of digits spells a number modulo a power of sixteen, so a number that is small
enough is known from its digits.

* `Hexadecimal.code?_digits`, `Hexadecimal.code?_append_toUpper` — what is read from written
  digits, small or capital;
* `Hexadecimal.digits_injective` — numbers with the same digits;
* `Hexadecimal.mem_of_mem_digits` — the characters of the digits.
-/

set_option autoImplicit false

namespace Machining.Hexadecimal

/-- Digits are read in front of anything. -/
theorem code?_append {n v k : ℕ} {ds rest : List Char} (h : code? n v ds = some (k, rest))
    (more : List Char) : code? n v (ds ++ more) = some (k, rest ++ more) := by
  induction n generalizing v ds with
  | zero =>
    simp only [code?, Option.some.injEq, Prod.mk.injEq] at h
    obtain ⟨rfl, rfl⟩ := h
    rfl
  | succ n ih =>
    cases ds with
    | nil => cases h
    | cons c ds =>
      simp only [code?, Option.bind_eq_some_iff] at h
      obtain ⟨d, hd, h⟩ := h
      rw [List.cons_append, code?, hd, Option.bind_some, ih h]

/-- **Written digits read back**, in front of other characters and after other digits. -/
theorem code?_append_digits (n m v k : ℕ) (rest : List Char) :
    code? (n + m) v (digits n k ++ rest) = code? m (v * 16 ^ n + k % 16 ^ n) rest := by
  induction n generalizing m k rest with
  | zero => simp [digits, Nat.mod_one]
  | succ n ih =>
    -- the last digit is the first one that is read after the others
    have hdigit : value? (digit (k % 16)) = some (k % 16) :=
      value?_digit _ (Nat.mod_lt _ (by decide))
    have hvalue : 16 * (v * 16 ^ n + k / 16 % 16 ^ n) + k % 16 =
        v * 16 ^ (n + 1) + k % 16 ^ (n + 1) := by
      rw [Nat.pow_succ', Nat.mod_mul]
      ring
    rw [Nat.add_right_comm, Nat.add_assoc n m 1, digits, List.append_assoc, ih,
      List.singleton_append, code?, hdigit, Option.bind_some, hvalue]

theorem code?_digits {n k : ℕ} (hk : k < 16 ^ n) : code? n 0 (digits n k) = some (k, []) := by
  have hread := code?_append_digits n 0 0 k []
  rwa [List.append_nil, Nat.add_zero, Nat.zero_mul, Nat.zero_add, Nat.mod_eq_of_lt hk] at hread

/-- A digit counts the same as a capital. -/
theorem value?_toUpper (d : ℕ) (h : d < 16) : value? (digit d).toUpper = some d := by
  revert d
  decide

/-- Digits in capitals are read like any others. -/
theorem code?_append_toUpper (n m v k : ℕ) (rest : List Char) :
    code? (n + m) v ((digits n k).map Char.toUpper ++ rest) =
      code? (n + m) v (digits n k ++ rest) := by
  induction n generalizing m k rest with
  | zero => rfl
  | succ n ih =>
    have hd : k % 16 < 16 := Nat.mod_lt _ (by decide)
    rw [Nat.add_right_comm, Nat.add_assoc n m 1, digits, List.map_append, List.append_assoc, ih,
      List.append_assoc, code?_append_digits, code?_append_digits]
    simp only [List.map_cons, List.map_nil, List.singleton_append, code?, value?_toUpper _ hd,
      value?_digit _ hd]

theorem digits_injective {n k l : ℕ} (hk : k < 16 ^ n) (hl : l < 16 ^ n)
    (h : digits n k = digits n l) : k = l := by
  have hread := code?_digits hk
  rw [h, code?_digits hl] at hread
  exact (Prod.mk.inj (Option.some.inj hread)).1.symm

theorem digit_mem (d : ℕ) (h : d < 16) : digit d ∈ "0123456789abcdef".toList := by
  revert d
  decide

theorem mem_of_mem_digits {n k : ℕ} {c : Char} (hc : c ∈ digits n k) :
    c ∈ "0123456789abcdef".toList := by
  induction n generalizing k with
  | zero => cases hc
  | succ n ih =>
    rw [digits, List.mem_append, List.mem_singleton] at hc
    rcases hc with hc | rfl
    · exact ih hc
    · exact digit_mem _ (Nat.mod_lt _ (by decide))

end Machining.Hexadecimal
