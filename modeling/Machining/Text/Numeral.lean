/-!
# Numerals

Natural numbers written in ten digits, most significant first, without leading zeros, and the
value of a run of such digits.

* `Numeral.value_digits` — a written number reads back;
* `Numeral.isDigit_digits` — it is written in ASCII digits alone.
-/

set_option autoImplicit false

namespace Machining.Numeral

/-- The character of a digit below ten. -/
def digit (d : Nat) : Char := Char.ofNat (48 + d % 10)

/-- The digits of a number, most significant first; zero is one digit. -/
def digits (n : Nat) : List Char :=
  if n < 10 then [digit n] else digits (n / 10) ++ [digit (n % 10)]

/-- The ASCII decimal digits. -/
def isDigit (c : Char) : Bool := decide ('0' ≤ c) && decide (c ≤ '9')

/-- The value of an ASCII digit. -/
def digitValue (c : Char) : Nat := c.toNat - 48

/-- The value of a run of digits. -/
def value (cs : List Char) : Nat := cs.foldl (fun n c => 10 * n + digitValue c) 0

/-- The text of a number. -/
def text (n : Nat) : String := String.ofList (digits n)

/-- The text of an integer, a minus sign before a negative one. -/
def signedText (i : Int) : String :=
  if i < 0 then "-" ++ text i.natAbs else text i.natAbs

theorem digitValue_digit (d : Nat) (h : d < 10) : digitValue (digit d) = d := by
  revert d; decide

theorem isDigit_digit (d : Nat) : isDigit (digit d) = true := by
  have h : d % 10 < 10 := Nat.mod_lt _ (by decide)
  unfold digit
  generalize d % 10 = r at h
  revert r; decide

theorem value_append_singleton (cs : List Char) (c : Char) :
    value (cs ++ [c]) = 10 * value cs + digitValue c := by
  simp [value, List.foldl_append]

/-- **A written number reads back.** -/
theorem value_digits (n : Nat) : value (digits n) = n := by
  induction n using Nat.strongRecOn with
  | ind n ih =>
    rw [digits]
    split
    · rename_i h
      simp [value, digitValue_digit n h]
    · rename_i h
      rw [value_append_singleton, ih (n / 10) (by omega), digitValue_digit _ (by omega)]
      omega

/-- **Only ASCII digits are written.** -/
theorem isDigit_digits (n : Nat) : ∀ c ∈ digits n, isDigit c = true := by
  induction n using Nat.strongRecOn with
  | ind n ih =>
    rw [digits]
    split
    · simp [isDigit_digit]
    · intro c hc
      rcases List.mem_append.1 hc with h | h
      · exact ih (n / 10) (by omega) c h
      · simp only [List.mem_singleton] at h
        rw [h]; exact isDigit_digit _

end Machining.Numeral
