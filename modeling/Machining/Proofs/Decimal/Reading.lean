import Machining.Decimal.Layout
import Machining.Decimal.Reading
import Machining.Proofs.Decimal.Shortest
import Machining.Proofs.Double.Numeral
import Machining.Proofs.Program.Grammar
import Machining.Proofs.Text.Numeral

/-!
# Positional texts read back

A layout that is always positional sets the digits of a decimal out around a point, with zeros
where a digit is missing.  What is read is another decimal of the same value, and so the same
double.

* `magnitudeBits_scaled` — moving zeros into the digits leaves the nearest double as it is;
* `Layout.exists_numberText` — a positional text is a sign and a number without leading zeros;
* `Double.read?_plain` — the plain text of a finite double is read as the double.
-/

set_option autoImplicit false

namespace Machining

namespace Double

/-- A finite double is defined. -/
theorem isNaN_of_isFinite {x : Float} (hx : x.isFinite = true) : x.isNaN = false := by
  rw [isFinite_eq] at hx
  rw [isNaN_eq]
  cases h : reading x <;>
    simp_all [Float.Model.UnpackedFloat.isNaN, Float.Model.UnpackedFloat.isFinite]

end Double

/-! ## Decimals of one value -/

namespace Decimal

theorem ratio_pos (d : Decimal) : 0 < d.ratio.2 := by
  unfold ratio
  split
  · exact one_pos
  · simp

theorem ratio_value (d : Decimal) : (d.ratio.1 : ℚ) / d.ratio.2 = d.digits * 10 ^ d.exponent := by
  unfold ratio
  split
  · rename_i he
    obtain ⟨k, hk⟩ := Int.eq_ofNat_of_zero_le he
    simp [hk]
  · rename_i he
    obtain ⟨k, hk⟩ := Int.eq_ofNat_of_zero_le (show 0 ≤ -d.exponent by omega)
    obtain hneg : d.exponent = -k := by omega
    simp [hneg, div_eq_mul_inv]

theorem log2_mul_pow {n : ℕ} (hn : 0 < n) (k : ℕ) : n.log2 + 3 * k ≤ (n * 10 ^ k).log2 := by
  refine (Nat.le_log2 (by positivity)).2 ?_
  calc 2 ^ (n.log2 + 3 * k) = 2 ^ n.log2 * 8 ^ k := by rw [Nat.pow_add, Nat.pow_mul]
    _ ≤ n * 10 ^ k :=
      Nat.mul_le_mul (Nat.log2_self_le hn.ne') (Nat.pow_le_pow_left (by norm_num) k)

/-- **Zeros may move into the digits** of a decimal that is not beyond all doubles. -/
theorem magnitudeBits_scaled {negative s : Bool} {n k : ℕ} {e : ℤ} (hk : 0 ≤ e + k)
    (hfinite : (Decimal.mk negative n e).magnitudeBits < Double.infinityBits) (hzero : n = 0 ∨
      0 < (Decimal.mk negative n e).magnitudeBits) :
    (Decimal.mk s (n * 10 ^ (e + k).toNat) (-k)).magnitudeBits =
      (Decimal.mk negative n e).magnitudeBits := by
  rcases Nat.eq_zero_or_pos n with rfl | hn
  · simp [magnitudeBits]
  have hbits := hzero.resolve_left hn.ne'
  have hlow : ¬400 < e := fun h => by
    rw [magnitudeBits, if_neg hn.ne', if_pos h] at hfinite
    exact absurd hfinite (lt_irrefl _)
  have hhigh : ¬e + n.log2 < -400 := fun h => by
    rw [magnitudeBits, if_neg hn.ne', if_neg hlow, if_pos h] at hbits
    exact absurd hbits (lt_irrefl _)
  have hlog := log2_mul_pow hn (e + k).toNat
  have hne : n * 10 ^ (e + k).toNat ≠ 0 := by positivity
  unfold magnitudeBits
  dsimp only
  rw [if_neg hne, if_neg (by omega), if_neg (by omega), if_neg hn.ne', if_neg hlow, if_neg hhigh]
  refine Double.nearestBits_congr (ratio_pos _) (ratio_pos _) ?_
  rw [ratio_value, ratio_value]
  have hpow : (10 : ℚ) ^ (e + k).toNat * 10 ^ (-(k : ℤ)) = 10 ^ e := by
    rw [← zpow_natCast, ← zpow_add₀ (by norm_num)]
    congr 1
    omega
  push_cast
  rw [mul_assoc, hpow]

end Decimal

/-! ## Numbers with a point -/

namespace NumberText

/-- The decimal of a number. -/
def decimal (n : NumberText) : Decimal :=
  .ofParts (decide (n.sign = .minus)) n.magnitude.whole (n.magnitude.fraction.getD []) 0

theorem splitFraction_dropWhile (d : DecimalText) :
    Numeral.splitFraction (d.toList.dropWhile Numeral.isDigit) = (d.fraction.getD [], []) := by
  rw [d.dropWhile_toList]
  have hfraction := d.isDigit_fraction
  cases hf : d.fraction with
  | none => rfl
  | some ds =>
    rw [hf] at hfraction
    exact Prod.ext (List.takeWhile_eq_self_iff.2 hfraction)
      (List.dropWhile_eq_nil_iff.2 hfraction)

theorem read?_toList (n : NumberText) : Decimal.read? n.toList = some n.decimal := by
  have hlast := n.magnitude.last_ne_nil
  unfold Decimal.read? Numeral.splitDigits
  simp only [splitSign_toList, splitFraction_dropWhile, DecimalText.takeWhile_toList]
  rw [if_neg, Numeral.exponent?, Option.map_some, decimal]
  cases hf : n.magnitude.fraction <;> simp_all

/-- The digits and the point have no capital forms. -/
theorem toLower_of_digit_or_point {c : Char} (h : Numeral.isDigit c = true ∨ c = '.') :
    c.toLower = c := by
  have hle : c.val ≤ '9'.val := by
    rcases h with h | rfl
    · simp only [Numeral.isDigit, Bool.and_eq_true, decide_eq_true_eq] at h
      exact h.2
    · decide
  have hlt : ¬ c.val ≥ 'A'.val := fun hA => absurd (UInt32.le_trans hA hle) (by decide)
  exact dif_neg fun h => hlt h.1

/-- A number is not the name of an infinite or undefined value. -/
theorem map_toLower_ne {d : DecimalText} {c : Char} {cs : List Char}
    (hc : Numeral.isDigit c = false ∧ c ≠ '.') : d.toList.map Char.toLower ≠ c :: cs := by
  obtain ⟨x, xs, hd, hx⟩ := d.exists_toList_eq_cons
  rw [hd, List.map_cons, toLower_of_digit_or_point hx]
  rintro ⟨⟩
  rcases hx with hx | hx
  · exact absurd hx (by rw [hc.1]; decide)
  · exact hc.2 hx

/-- **A number is read as the double nearest to it.** -/
theorem double?_toList (n : NumberText) :
    Double.read? (String.ofList n.toList) = some n.decimal.toDouble := by
  have hname (c : Char) (cs : List Char) (hc : Numeral.isDigit c = false ∧ c ≠ '.') :
      String.ofList (n.magnitude.toList.map Char.toLower) ≠ String.ofList (c :: cs) :=
    fun h => map_toLower_ne hc (String.ofList_injective h)
  have hnan := hname 'n' ['a', 'n'] (by decide)
  have hinf := hname 'i' ['n', 'f'] (by decide)
  have hinfinity := hname 'i' "nfinity".toList (by decide)
  unfold Double.read?
  simp only [String.toList_ofList, splitSign_toList, read?_toList]
  rw [if_neg hnan, if_neg (by simpa using ⟨hinf, hinfinity⟩)]
  rfl

end NumberText

/-! ## Digits set out around a point -/

namespace Layout

/-- A number without leading zeros whose digits are those of `ds`, shifted by the power of ten. -/
structure SetsOut (zeroFraction : Bool) (ds : List Char) (e : ℤ) (d : DecimalText) : Prop where
  text : positionalText zeroFraction ds e = d.toList
  whole_ne_nil : d.whole ≠ []
  leading : d.whole.head? = some '0' → d.whole = ['0']
  fraction : zeroFraction = true → d.fraction.getD [] ≠ []
  scale : 0 ≤ e + (d.fraction.getD []).length
  value : Numeral.value (d.whole ++ d.fraction.getD []) =
    Numeral.value ds * 10 ^ (e + (d.fraction.getD []).length).toNat

theorem isDigit_zeros (n : ℕ) : ∀ c ∈ zeros n, Numeral.isDigit c = true := by
  intro c hc
  rw [List.eq_of_mem_replicate hc]
  rfl

/-- Padded digits have a zero in front of the point only where nothing else stands there. -/
theorem take_padded {ds padded : List Char} {k : ℕ} (hlead : ds.head? = some '0' → ds = ['0'])
    (hpadded : zeros (k + 1 - ds.length) ++ ds = padded)
    (h : (padded.take (padded.length - k)).head? = some '0') :
    padded.take (padded.length - k) = ['0'] := by
  have hlength : padded.length = k + 1 - ds.length + ds.length := by
    rw [← hpadded, List.length_append, zeros, List.length_replicate]
  by_cases hlong : k < ds.length
  · -- the digits are not padded, so a zero in front would be all there is
    have hsame : padded = ds := by
      rw [← hpadded, show k + 1 - ds.length = 0 by omega]
      rfl
    have hhead : (padded.take (padded.length - k)).head? = ds.head? := by
      rw [List.head?_take, if_neg (by omega), hsame]
    have hone := hlead (hhead.symm.trans h)
    rw [hone, List.length_singleton] at hlong hlength
    have hdigit : padded = ['0'] := hsame.trans hone
    obtain rfl : k = 0 := by omega
    rw [hdigit]
    rfl
  · obtain ⟨c, hc⟩ : ∃ c, padded.take (padded.length - k) = [c] :=
      List.length_eq_one_iff.1 (by rw [List.length_take]; omega)
    rw [hc] at h ⊢
    simpa using h

/-- Digits that reach below the point are padded in front. -/
theorem exists_setsOut_of_neg (zeroFraction : Bool) {ds : List Char} (hne : ds ≠ [])
    (hds : ∀ c ∈ ds, Numeral.isDigit c = true) {e : ℤ} (he : e < 0)
    (hlead : ds.head? = some '0' → ds = ['0']) :
    ∃ d : DecimalText, SetsOut zeroFraction ds e d := by
  obtain ⟨k, hk⟩ := Int.eq_ofNat_of_zero_le (show 0 ≤ -e by omega)
  have hplaces : (-e).toNat = k := by omega
  have hlen := List.length_pos_iff.2 hne
  generalize hpadded : zeros (k + 1 - ds.length) ++ ds = padded
  have hdigits : ∀ c ∈ padded, Numeral.isDigit c = true := by
    rw [← hpadded]
    exact List.forall_mem_append.2 ⟨isDigit_zeros _, hds⟩
  have hlength : padded.length = k + 1 - ds.length + ds.length := by
    rw [← hpadded, List.length_append, zeros, List.length_replicate]
  have hfraction : (padded.drop (padded.length - k)).length = k := by
    rw [List.length_drop]
    omega
  have hwhole : padded.take (padded.length - k) ≠ [] :=
    List.ne_nil_of_length_pos (by rw [List.length_take]; omega)
  refine ⟨⟨padded.take (padded.length - k), some (padded.drop (padded.length - k)),
    fun c hc => hdigits c (List.mem_of_mem_take hc),
    fun c hc => hdigits c (List.mem_of_mem_drop hc),
    List.ne_nil_of_length_pos (by rw [Option.getD_some, hfraction]; omega)⟩, ?_⟩
  refine ⟨?_, hwhole, ?_,
    fun _ => List.ne_nil_of_length_pos (by rw [Option.getD_some, hfraction]; omega), ?_, ?_⟩
  · rw [positionalText, if_neg (by omega)]
    simp only [hplaces, hpadded]
    rfl
  · exact fun h => take_padded hlead hpadded h
  · rw [Option.getD_some, hfraction]
    omega
  · change Numeral.value (padded.take (padded.length - k) ++ padded.drop (padded.length - k)) =
      Numeral.value ds * 10 ^ (e + ((padded.drop (padded.length - k)).length : ℤ)).toNat
    rw [hfraction, List.take_append_drop, ← hpadded, Numeral.value_append, zeros,
      Numeral.value_replicate_zero, show (e + (k : ℤ)).toNat = 0 by omega]
    simp

/-- **Digits and a power of ten are always set out in such a way.** -/
theorem exists_setsOut (zeroFraction : Bool) {ds : List Char} (hne : ds ≠ [])
    (hds : ∀ c ∈ ds, Numeral.isDigit c = true) {e : ℤ}
    (hlead : ds.head? = some '0' → ds = ['0'] ∧ e ≤ 0) :
    ∃ d : DecimalText, SetsOut zeroFraction ds e d := by
  by_cases he : 0 ≤ e
  · obtain ⟨k, rfl⟩ := Int.eq_ofNat_of_zero_le he
    have hwhole : ∀ c ∈ ds ++ zeros k, Numeral.isDigit c = true :=
      List.forall_mem_append.2 ⟨hds, isDigit_zeros k⟩
    have hlead' : (ds ++ zeros k).head? = some '0' → ds ++ zeros k = ['0'] := by
      rw [List.head?_append_of_ne_nil _ hne]
      intro h
      obtain ⟨hds, hk⟩ := hlead h
      obtain rfl : k = 0 := by omega
      rw [hds]
      rfl
    cases zeroFraction with
    | false =>
      refine ⟨⟨ds ++ zeros k, none, hwhole, (fun _ h => nomatch h), by simp [hne]⟩, ?_⟩
      refine ⟨?_, by simp [hne], hlead', by simp, by simp, ?_⟩
      · simp [positionalText, DecimalText.toList]
      · simp [Numeral.value_append, zeros, Numeral.value_replicate_zero]
    | true =>
      refine ⟨⟨ds ++ zeros k, some ['0'], hwhole, by simp [Numeral.isDigit], by simp⟩, ?_⟩
      refine ⟨?_, by simp [hne], hlead', by simp, by simp; omega, ?_⟩
      · simp [positionalText, DecimalText.toList]
      · change Numeral.value (ds ++ zeros k ++ ['0']) =
          Numeral.value ds * 10 ^ ((k : ℤ) + (['0'].length : ℤ)).toNat
        rw [show ((k : ℤ) + (['0'].length : ℤ)).toNat = k + 1 by simp, List.append_assoc,
          show zeros k ++ ['0'] = List.replicate (k + 1) '0' from List.replicate_succ'.symm,
          Numeral.value_append, Numeral.value_replicate_zero, List.length_replicate, add_zero]
  · exact exists_setsOut_of_neg zeroFraction hne hds (by omega) fun h => (hlead h).1

/-- **The positional text of a finite double** is a number without a plus sign and without leading
zeros, and reads back. -/
theorem exists_numberText {l : Layout} (hl : ∀ e, l.positional e = true) {x : Float}
    (hx : x.isFinite = true) : ∃ n : NumberText, (l.text x).toList = n.toList ∧
      n.decimal.toDouble = x ∧ n.sign ≠ .plus ∧ n.magnitude.whole ≠ [] ∧
      (n.magnitude.whole.head? = some '0' → n.magnitude.whole = ['0']) ∧
      (l.zeroFraction = true → n.magnitude.fraction.getD [] ≠ []) := by
  have hbits : (Shortest.ofFloat l.tie x).magnitudeBits < Double.infinityBits := by
    rw [Shortest.magnitudeBits_ofFloat l.tie hx]
    exact (Double.isFinite_iff_bits x).1 hx
  have hzero := Shortest.ofFloat_zero_or_pos l.tie hx
  have hread := Shortest.toDouble_ofFloat l.tie hx
  have htext : (l.text x).toList = l.decimalText (Shortest.ofFloat l.tie x) := by
    rw [text, Double.isNaN_of_isFinite hx, if_neg Bool.false_ne_true, if_pos hx,
      String.toList_ofList]
  generalize Shortest.ofFloat l.tie x = d at *
  obtain ⟨t, ht⟩ := exists_setsOut l.zeroFraction (Numeral.digits_ne_nil d.digits)
    (Numeral.isDigit_digits d.digits) (e := d.exponent) (by
      intro h
      obtain ⟨hd, he⟩ | ⟨hd, _⟩ := hzero
      · exact ⟨by rw [hd, Numeral.digits]; rfl, he.le⟩
      · exact absurd h (Numeral.head?_digits hd))
  refine ⟨⟨if d.negative then .minus else .absent, t⟩, ?_, ?_, ?_, ht.whole_ne_nil, ht.leading,
    ht.fraction⟩
  · rw [htext, decimalText]
    simp only [hl, Bool.or_true, if_true, ht.text, NumberText.toList]
    cases d.negative <;> rfl
  · have hsign : decide ((if d.negative = true then SignMark.minus else .absent) = .minus) =
        d.negative := by
      cases d.negative <;> rfl
    have hscaled := Decimal.magnitudeBits_scaled (s := d.negative) ht.scale hbits
      (hzero.imp And.left And.right)
    rw [← Numeral.value_digits d.digits, ← ht.value] at hscaled
    rw [NumberText.decimal, Decimal.ofParts, Decimal.toDouble, hsign, zero_sub, hscaled,
      Numeral.value_digits]
    exact hread
  · cases d.negative <;> simp

/-- Numbers in reports, meshes and messages are always positional. -/
theorem positional_plain (e : ℤ) : plain.positional e = true := rfl

end Layout

/-- **The plain text of a finite double is read as the double.** -/
theorem Double.read?_plain {x : Float} (hx : x.isFinite = true) :
    Double.read? (Layout.plain.text x) = some x := by
  obtain ⟨n, htext, hn, -⟩ := Layout.exists_numberText Layout.positional_plain hx
  rw [← String.ofList_toList (s := Layout.plain.text x), htext, NumberText.double?_toList, hn]

end Machining
