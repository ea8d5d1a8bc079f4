import Machining.Proofs.Decimal.Nearest
import Machining.Proofs.Double.Bits

/-!
# Shortest digits read back

Every multiple the search for shortest digits takes reads back as the double, since this is what
is asked of it.  Where no grid has such a multiple, all digits of the double are taken, and these
read back because the nearest double to the value of a double is that double.

* `magnitudeBits_digits` — the digits of a double have its bits;
* `Shortest.toDouble_ofFloat` — the decimal of a finite double is read as the double.
-/

set_option autoImplicit false

namespace Machining

open Double (Canonical infinityBits mantissaCount signBit leastExponent)

/-! ## All digits -/

namespace Dyadic

/-- The bits of a positive finite double are a canonical pair. -/
theorem canonical_ofBits {bits : ℕ} (hpos : 0 < bits) (hlt : bits < infinityBits) :
    Canonical (ofBits bits).mantissa (ofBits bits).exponent ∧ (ofBits bits).exponent ≤ 971 := by
  unfold infinityBits mantissaCount at hlt
  unfold ofBits mantissaCount leastExponent
  dsimp only
  split
  · refine ⟨⟨?_, ?_, le_refl _, Or.inr rfl⟩, ?_⟩ <;> dsimp only <;> omega
  · refine ⟨⟨?_, ?_, ?_, Or.inl ?_⟩, ?_⟩ <;> dsimp only <;> omega

/-- The bits of a pair are those it was read from. -/
theorem bits_ofBits (bits : ℕ) :
    (ofBits bits).mantissa + ((ofBits bits).exponent + 1074).toNat * mantissaCount = bits := by
  have hsum := Nat.mod_add_div' bits mantissaCount
  unfold ofBits leastExponent
  dsimp only
  split
  · rename_i h
    rw [h, Nat.zero_mul] at hsum
    simpa using hsum
  · rename_i h
    have hpos := Nat.pos_of_ne_zero h
    generalize bits / mantissaCount = e at *
    have hcount : (-1074 + ((e - 1 : ℕ) : ℤ) + 1074).toNat + 1 = e := by omega
    rw [← hcount, Nat.succ_mul] at hsum
    dsimp only
    omega

theorem le_log2_mul_pow {m : ℕ} (hm : 0 < m) (k : ℕ) : 2 * k ≤ (m * 5 ^ k).log2 := by
  refine (Nat.le_log2 (by positivity)).2 ?_
  calc 2 ^ (2 * k) = 4 ^ k := by rw [Nat.pow_mul]
    _ ≤ 5 ^ k := Nat.pow_le_pow_left (by norm_num) k
    _ ≤ m * 5 ^ k := Nat.le_mul_of_pos_left _ hm

/-- All digits of a canonical pair read back as the pair. -/
theorem magnitudeBits_exact {v : Dyadic} (hc : Canonical v.mantissa v.exponent)
    (he : v.exponent ≤ 971) : (Decimal.mk false v.exact.1 v.exact.2).magnitudeBits =
      v.mantissa + (v.exponent + 1074).toNat * mantissaCount := by
  have hm := hc.pos
  unfold exact Decimal.magnitudeBits
  split
  · rename_i hexp
    obtain ⟨k, hk⟩ := Int.eq_ofNat_of_zero_le hexp
    have hdigits : v.mantissa <<< v.exponent.toNat ≠ 0 := by
      rw [Nat.shiftLeft_eq]
      positivity
    rw [if_neg hdigits, if_neg (by dsimp only; omega), if_neg (by dsimp only; omega)]
    refine Double.nearestBits_exact hc he ?_ ?_
    · simp [Decimal.ratio]
    · simp [Decimal.ratio, Nat.shiftLeft_eq, hk]
  · rename_i hexp
    obtain ⟨k, hk⟩ := Int.eq_ofNat_of_zero_le (show 0 ≤ -v.exponent by omega)
    have hkn : (-v.exponent).toNat = k := by omega
    have hlog := le_log2_mul_pow hm k
    simp only [Nat.pow_eq, hkn]
    rw [if_neg (by positivity), if_neg (by omega), if_neg (by omega)]
    refine Double.nearestBits_exact hc he ?_ ?_
    · simp [Decimal.ratio, hexp]
    · have hten : (10 : ℚ) ^ k = 5 ^ k * 2 ^ k := by rw [← mul_pow]; norm_num
      have hneg : v.exponent = -k := by omega
      simp only [Decimal.ratio, if_neg hexp, Nat.pow_eq, hkn]
      push_cast
      rw [hten, hneg, zpow_neg, zpow_natCast]
      field_simp

end Dyadic

/-! ## Digits on a grid -/

namespace Shortest

/-- **A multiple that is taken reads back.** -/
theorem magnitudeBits_multiple? {tie : Tie} {bits num den d : ℕ} {g : ℤ}
    (h : multiple? tie bits num den g = some d) :
    (Decimal.mk false d g).magnitudeBits = bits := by
  unfold multiple? at h
  dsimp only at h
  split at h
  · rename_i hlow hhigh
    rw [beq_iff_eq] at hlow hhigh
    have hd : d = (onGrid num den g).1 ∨ d = (onGrid num den g).1 + 1 := by
      cases tie <;> grind
    rcases hd with rfl | rfl
    · exact hlow
    · exact hhigh
  · rename_i hlow _
    rw [beq_iff_eq] at hlow
    cases h
    exact hlow
  · rename_i _ hhigh
    rw [beq_iff_eq] at hhigh
    cases h
    exact hhigh
  · cases h

/-- **The digits of a double have its bits.** -/
theorem magnitudeBits_digits (tie : Tie) {bits : ℕ} (hpos : 0 < bits) (hlt : bits < infinityBits) :
    (Decimal.mk false (digits tie bits).1 (digits tie bits).2).magnitudeBits = bits := by
  unfold digits
  dsimp only
  split
  · rename_i r hr
    obtain ⟨g, _, hg⟩ := List.exists_of_findSome?_eq_some hr
    obtain ⟨d, hd, rfl⟩ := Option.map_eq_some_iff.1 hg
    exact magnitudeBits_multiple? hd
  · obtain ⟨hc, he⟩ := Dyadic.canonical_ofBits hpos hlt
    rw [Dyadic.magnitudeBits_exact hc he, Dyadic.bits_ofBits]

theorem magnitudeBits_ofFloat (tie : Tie) {x : Float} (hx : x.isFinite = true) :
    (ofFloat tie x).magnitudeBits = x.toBits.toNat % signBit := by
  have hlt := (Double.isFinite_iff_bits x).1 hx
  unfold ofFloat
  dsimp only
  split
  · rename_i h
    rw [h]
    rfl
  · rename_i h
    exact magnitudeBits_digits tie (Nat.pos_of_ne_zero h) hlt

/-- Zero is written with one digit. -/
theorem ofFloat_zero_or_pos (tie : Tie) {x : Float} (hx : x.isFinite = true) :
    (ofFloat tie x).digits = 0 ∧ (ofFloat tie x).exponent = 0 ∨
      0 < (ofFloat tie x).digits ∧ 0 < (ofFloat tie x).magnitudeBits := by
  by_cases h : x.toBits.toNat % signBit = 0
  · refine Or.inl ?_
    unfold ofFloat
    simp [h]
  · have hbits : 0 < (ofFloat tie x).magnitudeBits := by
      rw [magnitudeBits_ofFloat tie hx]
      exact Nat.pos_of_ne_zero h
    refine Or.inr ⟨Nat.pos_of_ne_zero fun h0 => ?_, hbits⟩
    rw [Decimal.magnitudeBits, if_pos h0] at hbits
    exact absurd hbits (lt_irrefl _)

/-- **The decimal of a finite double is read as the double.** -/
theorem toDouble_ofFloat (tie : Tie) {x : Float} (hx : x.isFinite = true) :
    (ofFloat tie x).toDouble = x := by
  rw [Decimal.toDouble, magnitudeBits_ofFloat tie hx]
  exact Double.ofSignedBits_toBits x

end Shortest

end Machining
