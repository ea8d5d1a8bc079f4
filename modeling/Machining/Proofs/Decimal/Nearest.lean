import Machining.Decimal.Shortest
import Machining.Proofs.Double.Layout

/-!
# Nearest doubles

The search for the nearest double works on a ratio of whole numbers, and what it finds is a matter
of the ratio's value alone.  Where the value is that of a double, it finds the double itself.

* `binaryExponent_eq` — the binary exponent is the logarithm of the value;
* `nearestBits_congr` — ratios of one value have one nearest double;
* `nearestBits_exact` — the value of a canonical pair has the bits of the pair.
-/

set_option autoImplicit false

namespace Machining

/-! ## Rounding to a whole number -/

theorem roundHalfEven_mul {k : ℕ} (hk : 0 < k) (num den : ℕ) :
    roundHalfEven (k * num) (k * den) = roundHalfEven num den := by
  have hlt (a b : ℕ) : 2 * (k * a) < k * b ↔ 2 * a < b := by
    rw [Nat.mul_left_comm, Nat.mul_lt_mul_left hk]
  have hgt (a b : ℕ) : k * b < 2 * (k * a) ↔ b < 2 * a := by
    rw [Nat.mul_left_comm, Nat.mul_lt_mul_left hk]
  unfold roundHalfEven
  simp only [Nat.mul_div_mul_left _ _ hk, Nat.mul_mod_mul_left, hlt, hgt]

/-- Rounding looks at the value of a ratio alone. -/
theorem roundHalfEven_congr {num den num' den' : ℕ} (hd : 0 < den) (hd' : 0 < den')
    (h : (num : ℚ) / den = num' / den') : roundHalfEven num den = roundHalfEven num' den' := by
  have hcross : den' * num = den * num' := by
    have hq : (num : ℚ) * den' = num' * den :=
      (div_eq_div_iff (by exact_mod_cast hd.ne') (by exact_mod_cast hd'.ne')).1 h
    rw [Nat.mul_comm den', Nat.mul_comm den]
    exact_mod_cast hq
  rw [← roundHalfEven_mul hd' num den, ← roundHalfEven_mul hd num' den', hcross,
    Nat.mul_comm den' den]

theorem roundHalfEven_one (n : ℕ) : roundHalfEven n 1 = n := by
  simp [roundHalfEven, Nat.mod_one]

namespace Double

/-! ## Powers of two across the fraction bar -/

variable {num den num' den' : ℕ}

theorem shiftRatio_pos (num : ℕ) (hd : 0 < den) (k : ℤ) : 0 < (shiftRatio num den k).2 := by
  unfold shiftRatio
  split
  · simpa [Nat.shiftLeft_eq] using hd
  · exact hd

theorem shiftRatio_value (num den : ℕ) (k : ℤ) :
    ((shiftRatio num den k).1 : ℚ) / (shiftRatio num den k).2 = num / den / 2 ^ k := by
  unfold shiftRatio
  split
  · rename_i hk
    obtain ⟨n, rfl⟩ := Int.eq_ofNat_of_zero_le hk
    simp [Nat.shiftLeft_eq, div_div]
  · rename_i hk
    obtain ⟨n, hn⟩ := Int.eq_ofNat_of_zero_le (show 0 ≤ -k by omega)
    obtain rfl : k = -n := by omega
    simp [Nat.shiftLeft_eq, zpow_neg, div_eq_mul_inv]
    ring

theorem le_iff_value (hd : 0 < den) (k : ℤ) :
    (shiftRatio num den k).2 ≤ (shiftRatio num den k).1 ↔ (2 : ℚ) ^ k ≤ num / den := by
  have hpos : (0 : ℚ) < (shiftRatio num den k).2 := by exact_mod_cast shiftRatio_pos num hd k
  have hpow : (0 : ℚ) < 2 ^ k := zpow_pos (by norm_num) k
  rw [← one_le_div hpow, ← shiftRatio_value, one_le_div hpos, Nat.cast_le]

/-! ## The binary exponent -/

theorem pow_log2_le (hn : 0 < num) : (2 : ℚ) ^ (num.log2 : ℤ) ≤ num := by
  exact_mod_cast Nat.log2_self_le hn.ne'

theorem lt_pow_log2 (num : ℕ) : (num : ℚ) < 2 ^ ((num.log2 : ℤ) + 1) := by
  exact_mod_cast Nat.lt_log2_self (n := num)

/-- A quotient is within a factor of two of the quotient of the leading bits. -/
theorem value_bounds (hn : 0 < num) (hd : 0 < den) :
    (2 : ℚ) ^ ((num.log2 : ℤ) - den.log2 - 1) < num / den ∧
      (num : ℚ) / den < 2 ^ ((num.log2 : ℤ) - den.log2 + 1) := by
  have hden : (0 : ℚ) < den := by exact_mod_cast hd
  have hpow : (0 : ℚ) < 2 ^ ((num.log2 : ℤ) - den.log2 - 1) := zpow_pos (by norm_num) _
  have hpow' : (0 : ℚ) < 2 ^ ((num.log2 : ℤ) - den.log2 + 1) := zpow_pos (by norm_num) _
  constructor
  · rw [lt_div_iff₀ hden]
    calc (2 : ℚ) ^ ((num.log2 : ℤ) - den.log2 - 1) * den
        < 2 ^ ((num.log2 : ℤ) - den.log2 - 1) * 2 ^ ((den.log2 : ℤ) + 1) :=
          mul_lt_mul_of_pos_left (lt_pow_log2 den) hpow
      _ = 2 ^ (num.log2 : ℤ) := by
          rw [← zpow_add₀ (by norm_num)]
          congr 1
          omega
      _ ≤ num := pow_log2_le hn
  · rw [div_lt_iff₀ hden]
    calc (num : ℚ) < 2 ^ ((num.log2 : ℤ) + 1) := lt_pow_log2 num
      _ = 2 ^ ((num.log2 : ℤ) - den.log2 + 1) * 2 ^ (den.log2 : ℤ) := by
          rw [← zpow_add₀ (by norm_num)]
          congr 1
          omega
      _ ≤ 2 ^ ((num.log2 : ℤ) - den.log2 + 1) * den :=
          mul_le_mul_of_nonneg_left (pow_log2_le hd) hpow'.le

theorem log_eq_iff {x : ℚ} (hx : 0 < x) {k : ℤ} (hle : (2 : ℚ) ^ k ≤ x) (hlt : x < 2 ^ (k + 1)) :
    Int.log 2 x = k := by
  have h1 : k ≤ Int.log 2 x := (Int.zpow_le_iff_le_log (by norm_num) hx).1 (by exact_mod_cast hle)
  have h2 : Int.log 2 x < k + 1 :=
    (Int.lt_zpow_iff_log_lt (by norm_num) hx).1 (by exact_mod_cast hlt)
  omega

/-- **The binary exponent is the logarithm of the value.** -/
theorem binaryExponent_eq (hn : 0 < num) (hd : 0 < den) :
    binaryExponent num den = Int.log 2 ((num : ℚ) / den) := by
  have hvalue : (0 : ℚ) < num / den := div_pos (by exact_mod_cast hn) (by exact_mod_cast hd)
  obtain ⟨hlow, hhigh⟩ := value_bounds hn hd
  unfold binaryExponent
  simp only [le_iff_value hd]
  split
  · rename_i h
    exact (log_eq_iff hvalue h hhigh).symm
  · rename_i h
    refine (log_eq_iff hvalue hlow.le ?_).symm
    rw [Int.sub_add_cancel]
    exact lt_of_not_ge h

/-- The spacing of doubles around the value of a canonical pair is that of the pair. -/
theorem spacing_canonical {m : ℕ} {e : ℤ} (hc : Canonical m e) :
    max (Int.log 2 ((m : ℚ) * 2 ^ e) - 52) leastExponent = e := by
  obtain ⟨hm, hlt, hleast, hnormal⟩ := hc
  have hpow : (0 : ℚ) < 2 ^ e := zpow_pos (by norm_num) e
  have hvalue : (0 : ℚ) < m * 2 ^ e := mul_pos (by exact_mod_cast hm) hpow
  unfold leastExponent
  rcases hnormal with hbig | rfl
  · have hlog : Int.log 2 ((m : ℚ) * 2 ^ e) = e + 52 := by
      refine log_eq_iff hvalue ?_ ?_
      · rw [add_comm e, zpow_add₀ (by norm_num)]
        exact mul_le_mul_of_nonneg_right (by exact_mod_cast hbig) hpow.le
      · rw [add_assoc, add_comm e, zpow_add₀ (by norm_num)]
        exact mul_lt_mul_of_pos_right (by exact_mod_cast hlt) hpow
    omega
  · have hlog : Int.log 2 ((m : ℚ) * 2 ^ (-1074 : ℤ)) < 53 + -1074 := by
      refine (Int.lt_zpow_iff_log_lt (by norm_num) hvalue).1 ?_
      rw [Nat.cast_ofNat, zpow_add₀ (by norm_num)]
      exact mul_lt_mul_of_pos_right (by exact_mod_cast hlt) hpow
    omega

/-! ## The bits of a value -/

theorem value_eq_zero (hd : 0 < den) : (num : ℚ) / den = 0 ↔ num = 0 := by
  simp [hd.ne']

/-- **Ratios of one value have one nearest double.** -/
theorem nearestBits_congr (hd : 0 < den) (hd' : 0 < den')
    (h : (num : ℚ) / den = num' / den') : nearestBits num den = nearestBits num' den' := by
  have hzero : num = 0 ↔ num' = 0 := by rw [← value_eq_zero hd, h, value_eq_zero hd']
  unfold nearestBits
  by_cases hn : num = 0
  · rw [if_pos hn, if_pos (hzero.1 hn)]
  rw [if_neg hn, if_neg (mt hzero.2 hn)]
  have hexp : binaryExponent num den = binaryExponent num' den' := by
    rw [binaryExponent_eq (Nat.pos_of_ne_zero hn) hd,
      binaryExponent_eq (Nat.pos_of_ne_zero (mt hzero.2 hn)) hd', h]
  simp only [hexp]
  congr 2
  exact roundHalfEven_congr (shiftRatio_pos _ hd _) (shiftRatio_pos _ hd' _)
    (by rw [shiftRatio_value, shiftRatio_value, h])

/-- **The value of a canonical pair has the bits of the pair.** -/
theorem nearestBits_exact {m : ℕ} {e : ℤ} (hc : Canonical m e) (he : e ≤ 971) (hd : 0 < den)
    (h : (num : ℚ) / den = m * 2 ^ e) :
    nearestBits num den = m + (e + 1074).toNat * mantissaCount := by
  have hpow : (2 : ℚ) ^ e ≠ 0 := zpow_ne_zero e two_ne_zero
  have hn : num ≠ 0 := by
    rw [Ne, ← value_eq_zero hd, h]
    exact mul_ne_zero (by exact_mod_cast hc.pos.ne') hpow
  have hspacing : max (binaryExponent num den - 52) leastExponent = e := by
    rw [binaryExponent_eq (Nat.pos_of_ne_zero hn) hd, h, spacing_canonical hc]
  have hround : roundHalfEven (shiftRatio num den e).1 (shiftRatio num den e).2 = m := by
    rw [← roundHalfEven_one m]
    refine roundHalfEven_congr (shiftRatio_pos _ hd _) one_pos ?_
    rw [shiftRatio_value, h, mul_div_assoc, div_self hpow, mul_one, Nat.cast_one, div_one]
  have hlt := hc.lt
  have hleast := hc.least
  unfold nearestBits
  rw [if_neg hn, hspacing]
  simp only [hround, leastExponent, infinityBits, mantissaCount]
  omega

end Double

end Machining
