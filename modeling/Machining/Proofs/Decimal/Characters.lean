import Machining.Decimal.Layout

/-!
# The characters of number texts

However a double is set out, its text is made of digits, signs, a point, an exponent mark and the
letters of the names for infinite and undefined values.

* `Layout.isNumeric_text` — the text of a layout;
* `isNumeric_fixedText` — the text with a given number of decimals.
-/

set_option autoImplicit false

namespace Machining

/-- The characters that number texts are made of. -/
def isNumeric (c : Char) : Bool := Numeral.isDigit c || "+-.eNaninf".toList.contains c

theorem isNumeric_of_isDigit {c : Char} (h : Numeral.isDigit c = true) : isNumeric c = true := by
  rw [isNumeric, h, Bool.true_or]

theorem isNumeric_digits (n : Nat) : ∀ c ∈ Numeral.digits n, isNumeric c = true :=
  fun c hc => isNumeric_of_isDigit (Numeral.isDigit_digits n c hc)

namespace Layout

theorem isNumeric_zeros (n : Nat) : ∀ c ∈ zeros n, isNumeric c = true := by
  intro c hc
  rw [List.eq_of_mem_replicate hc]
  rfl

theorem isNumeric_positionalText (zeroFraction : Bool) {ds : List Char}
    (hds : ∀ c ∈ ds, isNumeric c = true) (exponent : Int) :
    ∀ c ∈ positionalText zeroFraction ds exponent, isNumeric c = true := by
  unfold positionalText
  split
  · have hfraction : ∀ c ∈ (if zeroFraction then ['.', '0'] else []), isNumeric c = true := by
      cases zeroFraction with
      | true => exact List.all_eq_true.1 (by decide)
      | false => exact List.all_eq_true.1 (by decide)
    simp only [List.forall_mem_append]
    exact ⟨⟨hds, isNumeric_zeros _⟩, hfraction⟩
  · have hpadded : ∀ c ∈ zeros ((-exponent).toNat + 1 - ds.length) ++ ds, isNumeric c = true :=
      List.forall_mem_append.2 ⟨isNumeric_zeros _, hds⟩
    simp only [List.forall_mem_append, List.forall_mem_cons]
    exact ⟨fun c hc => hpadded c (List.mem_of_mem_take hc), rfl,
      fun c hc => hpadded c (List.mem_of_mem_drop hc)⟩

theorem isNumeric_scientificText {ds : List Char} (hds : ∀ c ∈ ds, isNumeric c = true)
    (leading : Int) : ∀ c ∈ scientificText ds leading, isNumeric c = true := by
  have hsign : isNumeric (if leading < 0 then '-' else '+') = true := by
    split
    · rfl
    · rfl
  have hrest : ∀ c ∈ ds.drop 1, isNumeric c = true := fun c hc => hds c (List.mem_of_mem_drop hc)
  unfold scientificText
  simp only [List.forall_mem_append, List.forall_mem_cons]
  refine ⟨⟨fun c hc => hds c (List.mem_of_mem_take hc), ?_⟩, rfl, hsign, isNumeric_digits _⟩
  split
  · exact List.forall_mem_nil _
  · exact List.forall_mem_cons.2 ⟨rfl, hrest⟩

theorem isNumeric_decimalText (l : Layout) (d : Decimal) :
    ∀ c ∈ l.decimalText d, isNumeric c = true := by
  have hsign : ∀ c ∈ (if d.negative then ['-'] else []), isNumeric c = true := by
    cases d.negative with
    | true => exact List.all_eq_true.1 (by decide)
    | false => exact List.all_eq_true.1 (by decide)
  unfold decimalText
  simp only [List.forall_mem_append]
  refine ⟨hsign, ?_⟩
  split
  · exact isNumeric_positionalText _ (isNumeric_digits _) _
  · exact isNumeric_scientificText (isNumeric_digits _) _

/-- The text of an infinite value. -/
theorem isNumeric_infinite (x : Float) :
    ∀ c ∈ (if x < 0 then "-inf" else "inf").toList, isNumeric c = true := by
  split
  · exact List.all_eq_true.1 (by decide)
  · exact List.all_eq_true.1 (by decide)

/-- **The text of a double** is numeric wherever that of an undefined value is. -/
theorem isNumeric_text {l : Layout} (hundefined : ∀ c ∈ l.undefinedText.toList, isNumeric c = true)
    (x : Float) : ∀ c ∈ (l.text x).toList, isNumeric c = true := by
  unfold text
  split
  · exact hundefined
  · split
    · rw [String.toList_ofList]
      exact isNumeric_decimalText l _
    · exact isNumeric_infinite x

theorem isNumeric_plain (x : Float) : ∀ c ∈ (plain.text x).toList, isNumeric c = true :=
  isNumeric_text (List.all_eq_true.1 (by decide)) x

end Layout

/-- **A text with fixed decimals** is numeric. -/
theorem isNumeric_fixedText (places : Nat) (x : Float) :
    ∀ c ∈ (fixedText places x).toList, isNumeric c = true := by
  unfold fixedText
  split
  · exact List.all_eq_true.1 (by decide)
  · split
    · have hsign : ∀ c ∈ (if Double.signBit ≤ x.toBits.toNat then ['-'] else []),
          isNumeric c = true := by
        split
        · exact List.all_eq_true.1 (by decide)
        · exact List.all_eq_true.1 (by decide)
      dsimp only
      rw [String.toList_ofList, List.forall_mem_append]
      exact ⟨hsign, Layout.isNumeric_positionalText _ (isNumeric_digits _) _⟩
    · exact Layout.isNumeric_infinite x

end Machining
