import Mathlib
import Machining.Text.Numeral

/-!
# Runs of digits

The value of a run of digits is a sum over its places, so runs may be taken apart anywhere, and
zeros in front count for nothing.  A written number has no such zeros.

* `Numeral.value_append` — the value of two runs, one after the other;
* `Numeral.head?_digits` — no zero leads other digits.
-/

set_option autoImplicit false

namespace Machining.Numeral

theorem value_cons (c : Char) (cs : List Char) :
    value (c :: cs) = digitValue c * 10 ^ cs.length + value cs := by
  induction cs using List.reverseRecOn with
  | nil => simp [value]
  | append_singleton cs d ih =>
    rw [← List.cons_append, value_append_singleton, ih, value_append_singleton]
    simp only [List.length_append, List.length_singleton, Nat.pow_succ]
    ring

theorem value_append (ds es : List Char) :
    value (ds ++ es) = value ds * 10 ^ es.length + value es := by
  induction ds with
  | nil => simp [value]
  | cons d ds ih =>
    rw [List.cons_append, value_cons, value_cons, ih, List.length_append, Nat.pow_add]
    ring

theorem value_replicate_zero (n : ℕ) : value (List.replicate n '0') = 0 := by
  induction n with
  | zero => rfl
  | succ n ih =>
    rw [List.replicate_succ, value_cons, ih, show digitValue '0' = 0 from rfl, Nat.zero_mul]

theorem digits_ne_nil (n : ℕ) : digits n ≠ [] := by
  rw [digits]
  split <;> simp

/-- No zero leads other digits. -/
theorem head?_digits {n : ℕ} (hn : 0 < n) : (digits n).head? ≠ some '0' := by
  induction n using Nat.strongRecOn with
  | ind n ih =>
    rw [digits]
    split
    · rename_i h
      obtain ⟨d, rfl⟩ : ∃ d : Fin 10, n = d := ⟨⟨n, h⟩, rfl⟩
      clear ih h
      revert d
      decide
    · rename_i h
      rw [List.head?_append_of_ne_nil _ (digits_ne_nil _)]
      exact ih (n / 10) (by omega) (by omega)

end Machining.Numeral
