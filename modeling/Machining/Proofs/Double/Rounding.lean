import Machining.Proofs.Double.Layout

/-!
# Rounding to a double

A whole number times a power of two is cut down to 53 bits, to the nearest significand and to the
even one of two that are equally near.  If the significand grows to 54 bits by that, it is halved.

* `nearest` — the quotient by a power of two, rounded to the nearest whole number;
* `roundedMantissa_shiftRight` — shifting out the last bits rounds so;
* `round_shape` — the significand and the exponent of a rounded number.
-/

set_option autoImplicit false

namespace Machining.Double

open Float.Model
open Float.Model.UnpackedFloat (Sign Accuracy ExtendedMantissa shiftToTargetExponent
  shiftToExponent roundWithAccuracy decreaseExponent)

/-- The whole number nearest to `m / 2 ^ n`, the even one of two. -/
def nearest (m n : ℕ) : ℕ :=
  if 2 ^ n < 2 * (m % 2 ^ n) ∨ 2 ^ n = 2 * (m % 2 ^ n) ∧ m / 2 ^ n % 2 = 1 then m / 2 ^ n + 1
  else m / 2 ^ n

theorem le_nearest (m n : ℕ) : m / 2 ^ n ≤ nearest m n := by
  unfold nearest
  split <;> omega

theorem nearest_le (m n : ℕ) : nearest m n ≤ m / 2 ^ n + 1 := by
  unfold nearest
  split <;> omega

theorem nearest_zero (m : ℕ) : nearest m 0 = m := by
  unfold nearest
  rw [if_neg (by omega)]
  simp

/-! ## Shifting -/

/-- What is left of a significand after its last bits are shifted out: the quotient, whether at
least half of the divisor remains, and whether the remainder is neither zero nor that half. -/
theorem shiftRight_eq (m n : ℕ) : ExtendedMantissa.ofMantissaAndAccuracy m .exact >>> n =
    ⟨m / 2 ^ n, decide (2 ^ n ≤ 2 * (m % 2 ^ n)),
      decide (2 * (m % 2 ^ n) ≠ 0 ∧ 2 * (m % 2 ^ n) ≠ 2 ^ n)⟩ := by
  change Nat.repeat ExtendedMantissa.shiftRightOne n _ = _
  induction n with
  | zero => simp [Nat.repeat, ExtendedMantissa.ofMantissaAndAccuracy, Nat.mod_one]
  | succ n ih =>
    have hmod : m % 2 ^ (n + 1) = m % 2 ^ n + 2 ^ n * (m / 2 ^ n % 2) := Nat.mod_pow_succ
    have hlt : m % 2 ^ n < 2 ^ n := Nat.mod_lt _ (Nat.two_pow_pos n)
    have hbit : m / 2 ^ n % 2 = 0 ∨ m / 2 ^ n % 2 = 1 := by omega
    rw [Nat.repeat, ih, ExtendedMantissa.shiftRightOne]
    simp only [ExtendedMantissa.mk.injEq]
    refine ⟨?_, ?_, ?_⟩
    · rw [Nat.div_div_eq_div_mul, ← Nat.pow_succ]
    · rw [hmod, Nat.pow_succ]
      rcases hbit with hbit | hbit <;> simp [hbit] <;> omega
    · rw [hmod, Nat.pow_succ, ← Bool.decide_or, decide_eq_decide]
      rcases hbit with hbit | hbit <;> rw [hbit] <;> omega

/-- Shifting out the last bits rounds to the nearest whole number. -/
theorem roundedMantissa_shiftRight (m n : ℕ) :
    (ExtendedMantissa.ofMantissaAndAccuracy m .exact >>> n).roundedMantissa = nearest m n := by
  rw [shiftRight_eq]
  unfold ExtendedMantissa.roundedMantissa nearest
  by_cases hhalf : 2 ^ n ≤ 2 * (m % 2 ^ n)
  · by_cases htie : 2 * (m % 2 ^ n) = 2 ^ n
    · have hsticky : ¬(2 * (m % 2 ^ n) ≠ 0 ∧ 2 * (m % 2 ^ n) ≠ 2 ^ n) := fun h => h.2 htie
      rw [decide_eq_true hhalf, decide_eq_false hsticky]
      simp only [ExtendedMantissa.accuracy, Accuracy.roundToNearestEven]
      split <;> omega
    · have := Nat.two_pow_pos n
      rw [decide_eq_true hhalf, decide_eq_true (by omega)]
      simp only [ExtendedMantissa.accuracy, Accuracy.roundToNearestEven]
      rw [if_pos (by omega)]
  · rw [decide_eq_false hhalf, if_neg (by omega)]
    cases decide (2 * (m % 2 ^ n) ≠ 0 ∧ 2 * (m % 2 ^ n) ≠ 2 ^ n) <;> rfl

/-! ## Cutting down to 53 bits -/

/-- The number of bits beyond a significand. -/
def excess (m : ℕ) : ℕ := m.log2 - 52

/-- The significand that a whole number is cut down to. -/
def rounded (m : ℕ) : ℕ := nearest m (excess m)

theorem roundedMantissa_excess (m : ℕ) : (ExtendedMantissa.ofMantissaAndAccuracy m .exact >>>
    excess m).roundedMantissa = rounded m :=
  roundedMantissa_shiftRight m (excess m)

theorem targetExponent_eq (m : ℕ) (e : ℤ) :
    Format.binary64.targetExponent (totalExponent m e) = max (m.log2 + 1 + e - 53) (-1074) := by
  rfl

theorem rounded_le (m : ℕ) : rounded m ≤ 2 ^ 53 := by
  have hlog : m < 2 ^ (m.log2 + 1) := Nat.lt_log2_self
  have hpow : 2 ^ (m.log2 + 1) ≤ 2 ^ 53 * 2 ^ excess m := by
    rw [← Nat.pow_add]
    exact Nat.pow_le_pow_right (by decide) (by unfold excess; omega)
  have hdiv : m / 2 ^ excess m < 2 ^ 53 :=
    (Nat.div_lt_iff_lt_mul (Nat.two_pow_pos _)).2 (hlog.trans_le hpow)
  have := nearest_le m (excess m)
  unfold rounded
  omega

/-- A whole number at an exponent where it rounds without growing. -/
structure Roundable (m : ℕ) (e : ℤ) : Prop where
  pos : 0 < m
  least : -1074 ≤ e
  normal : 2 ^ 52 ≤ m ∨ e = -1074

theorem Canonical.roundable {m : ℕ} {e : ℤ} (h : Canonical m e) : Roundable m e :=
  ⟨h.pos, h.least, h.normal⟩

namespace Roundable

variable {m : ℕ} {e : ℤ}

theorem targetExponent (h : Roundable m e) :
    Format.binary64.targetExponent (totalExponent m e) = e + excess m := by
  rw [targetExponent_eq]
  have hlog := Nat.le_log2 h.pos.ne' (k := 52)
  have := h.least
  have := h.normal
  unfold excess
  omega

theorem shift (h : Roundable m e) : shiftToTargetExponent Format.binary64 m e .exact =
    (ExtendedMantissa.ofMantissaAndAccuracy m .exact >>> excess m, e + excess m) := by
  unfold shiftToTargetExponent shiftToExponent
  simp only [h.targetExponent, add_sub_cancel_left, Int.toNat_natCast]

/-- The rounded significand is that of a normal number, unless nothing was cut off. -/
theorem le_rounded (h : Roundable m e) :
    2 ^ 52 ≤ rounded m ∨ excess m = 0 ∧ e = -1074 := by
  by_cases hlog : 52 ≤ m.log2
  · left
    have hpow : 2 ^ 52 * 2 ^ excess m ≤ m := by
      rw [← Nat.pow_add, excess, Nat.add_sub_cancel' hlog]
      exact Nat.log2_self_le h.pos.ne'
    exact ((Nat.le_div_iff_mul_le (Nat.two_pow_pos _)).2 hpow).trans (le_nearest _ _)
  · right
    have hsmall := Nat.le_log2 h.pos.ne' (k := 52)
    exact ⟨by unfold excess; omega, h.normal.resolve_left fun hm => hlog (hsmall.2 hm)⟩

theorem rounded_pos (h : Roundable m e) : 0 < rounded m := by
  rcases h.le_rounded with hbig | ⟨hzero, _⟩
  · omega
  · rw [rounded, hzero, nearest_zero]
    exact h.pos

/-- The rounded significand rounds again without growing. -/
theorem again (h : Roundable m e) : Roundable (rounded m) (e + excess m) := by
  have hleast := h.least
  exact ⟨h.rounded_pos, by omega, h.le_rounded.imp_right fun h => by omega⟩

end Roundable

/-- The second shift halves a significand that has grown to 54 bits and keeps any other. -/
theorem halved {m : ℕ} (hpos : 0 < m) (hle : m ≤ 2 ^ 53) :
    (m / 2 ^ excess m = m ∧ excess m = 0 ∧ m < 2 ^ 53) ∨
      (m = 2 ^ 53 ∧ m / 2 ^ excess m = 2 ^ 52 ∧ excess m = 1) := by
  rcases hle.lt_or_eq with hlt | rfl
  · have hlog := (Nat.log2_lt hpos.ne').2 hlt
    have hzero : excess m = 0 := by
      unfold excess
      omega
    left
    rw [hzero, pow_zero, Nat.div_one]
    exact ⟨rfl, rfl, hlt⟩
  · right
    exact ⟨rfl, rfl, rfl⟩

/-- **Rounding gives a canonical pair**: the nearest significand of 53 bits, or half of it and the
next exponent if it has grown to 54 bits. -/
theorem round_shape {m : ℕ} {e : ℤ} (h : Roundable m e) (s : Sign) :
    ∃ (m' : ℕ) (e' : ℤ) (hc : Canonical m' e'),
      UnpackedFloat.round Format.binary64 s m e = .finite s m' e' hc.pos ∧
        (m' = rounded m ∧ e' = e + excess m ∨
          rounded m = 2 ^ 53 ∧ m' = 2 ^ 52 ∧ e' = e + excess m + 1) := by
  have hround : UnpackedFloat.round Format.binary64 s m e =
      roundWithAccuracy Format.binary64 s m e .exact := by
    unfold UnpackedFloat.round decreaseExponent
    rw [h.targetExponent]
    have hzero : (e - (e + (excess m : ℤ))).toNat = 0 := by omega
    simp only [hzero, Nat.shiftLeft_zero, Nat.cast_zero, sub_zero]
  have hleast := h.least
  have hhalf := halved h.rounded_pos (rounded_le m)
  have hcanonical : Canonical (rounded m / 2 ^ excess (rounded m))
      (e + excess m + excess (rounded m)) := by
    rcases hhalf with ⟨hdiv, hzero, hlt⟩ | ⟨_, hdiv, hone⟩
    · rw [hdiv, hzero, Nat.cast_zero, add_zero]
      exact ⟨h.rounded_pos, hlt, h.again.least, h.again.normal⟩
    · rw [hdiv, hone]
      exact ⟨by decide, by decide, by omega, Or.inl le_rfl⟩
  refine ⟨_, _, hcanonical, ?_, ?_⟩
  · rw [hround]
    unfold roundWithAccuracy
    simp only [h.shift, roundedMantissa_excess]
    simp only [h.again.shift, shiftRight_eq]
    rw [dif_neg hcanonical.pos.ne']
  · rcases hhalf with ⟨hdiv, hzero, _⟩ | ⟨hgrown, hdiv, hone⟩
    · exact Or.inl ⟨hdiv, by rw [hzero]; simp⟩
    · exact Or.inr ⟨hgrown, hdiv, by rw [hone]; simp⟩

end Machining.Double
