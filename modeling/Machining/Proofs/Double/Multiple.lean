import Machining.Proofs.Double.Sum

/-!
# Exact multiples of a double

A number with at most 53 significant bits is a double, and a product or a sum that is such a number
comes out without rounding.  So the multiples of a double are exact as long as its significant bits
and those of the factor fit in 53 bits, and then adding the double to one multiple gives the next.

* `roundWithAccuracy_exact`, `round_exact` — nothing that fits in 53 bits is rounded;
* `Canonical.unique` — a number is kept as one pair of significand and exponent only;
* `ofCount_mul_add` — the next multiple of a double by addition and by multiplication.
-/

set_option autoImplicit false

namespace Machining.Double

open Float.Model
open Float.Model.UnpackedFloat (Sign ExtendedMantissa shiftToTargetExponent shiftToExponent
  roundWithAccuracy decreaseExponent)

/-! ## Numbers of at most 53 bits -/

theorem nearest_mul (a d : ℕ) : nearest (a * 2 ^ d) d = a := by
  unfold nearest
  rw [Nat.mul_mod_left, Nat.mul_div_cancel _ (Nat.two_pow_pos d)]
  exact if_neg (by have := Nat.two_pow_pos d; omega)

theorem log2_mul_lt {a r : ℕ} (ha : 0 < a) (hlt : a < 2 ^ 53) : (a * 2 ^ r).log2 < 53 + r := by
  rw [Nat.log2_lt (Nat.mul_pos ha (Nat.two_pow_pos r)).ne', Nat.pow_add]
  exact Nat.mul_lt_mul_of_pos_right hlt (Nat.two_pow_pos r)

theorem Canonical.excess_eq_zero {m : ℕ} {e : ℤ} (h : Canonical m e) : excess m = 0 := by
  have hlog := (Nat.log2_lt h.pos.ne').2 h.lt
  unfold excess
  omega

/-- A canonical pair comes out of the second shift as it went in. -/
theorem Canonical.shift {m : ℕ} {e : ℤ} (h : Canonical m e) :
    shiftToTargetExponent Format.binary64 m e .exact =
      (ExtendedMantissa.ofMantissaAndAccuracy m .exact >>> 0, e) := by
  rw [h.roundable.shift, h.excess_eq_zero, Nat.cast_zero, add_zero]

/-- A significand that needs no second shift is the rounded one. -/
theorem roundWithAccuracy_of_canonical {m m' : ℕ} {e e' : ℤ} {x : UnpackedFloat.Accuracy}
    {em : ExtendedMantissa} (s : Sign)
    (hshift : shiftToTargetExponent Format.binary64 m e x = (em, e'))
    (hrounded : em.roundedMantissa = m') (hc : Canonical m' e') :
    roundWithAccuracy Format.binary64 s m e x = .finite s m' e' hc.pos := by
  unfold roundWithAccuracy
  simp only [hshift, hrounded]
  simp only [hc.shift, shiftRight_eq, pow_zero, Nat.div_one]
  rw [dif_neg hc.pos.ne']

/-- **A number of at most 53 bits is not rounded.** -/
theorem roundWithAccuracy_exact {a r : ℕ} {e : ℤ} (s : Sign) (ha : 0 < a) (hlt : a < 2 ^ 53)
    (hleast : -1074 ≤ e + r) (hfull : 2 ^ 52 ≤ a * 2 ^ r ∨ e ≤ -1074) :
    ∃ (m' : ℕ) (e' : ℤ) (hc : Canonical m' e'),
      roundWithAccuracy Format.binary64 s (a * 2 ^ r) e .exact = .finite s m' e' hc.pos ∧
        (m' : ℚ) * 2 ^ e' = a * 2 ^ (e + r) := by
  have hpos : 0 < a * 2 ^ r := Nat.mul_pos ha (Nat.two_pow_pos r)
  have hlog := log2_mul_lt (r := r) ha hlt
  have hlow : 52 ≤ (a * 2 ^ r).log2 ∨ e ≤ -1074 := hfull.imp_left (Nat.le_log2 hpos.ne').2
  -- the bits that are cut off are all zero
  obtain ⟨d, hd⟩ : ∃ d : ℕ, max (((a * 2 ^ r).log2 : ℤ) + 1 + e - 53) (-1074) = e + d :=
    ⟨(max (((a * 2 ^ r).log2 : ℤ) + 1 + e - 53) (-1074) - e).toNat, by omega⟩
  have hdr : d ≤ r := by omega
  have hsplit : a * 2 ^ r = a * 2 ^ (r - d) * 2 ^ d := by
    rw [Nat.mul_assoc, ← Nat.pow_add, Nat.sub_add_cancel hdr]
  have hcanonical : Canonical (a * 2 ^ (r - d)) (e + d) := by
    refine ⟨Nat.mul_pos ha (Nat.two_pow_pos _), ?_, by omega, ?_⟩
    · have hbound : a * 2 ^ r < 2 ^ (53 + d) := (Nat.log2_lt hpos.ne').1 (by omega)
      rw [hsplit, Nat.pow_add] at hbound
      exact Nat.lt_of_mul_lt_mul_right hbound
    · rcases Int.lt_or_le (-1074) (e + d) with hnormal | hsubnormal
      · left
        have hbound : 2 ^ (52 + d) ≤ a * 2 ^ r := (Nat.le_log2 hpos.ne').1 (by omega)
        rw [hsplit, Nat.pow_add] at hbound
        exact Nat.le_of_mul_le_mul_right hbound (Nat.two_pow_pos d)
      · right
        omega
  have hshift : shiftToTargetExponent Format.binary64 (a * 2 ^ r) e .exact =
      (ExtendedMantissa.ofMantissaAndAccuracy (a * 2 ^ r) .exact >>> d, e + d) := by
    unfold shiftToTargetExponent shiftToExponent
    simp only [targetExponent_eq, hd, add_sub_cancel_left, Int.toNat_natCast]
  have hrounded : (ExtendedMantissa.ofMantissaAndAccuracy (a * 2 ^ r) .exact >>>
      d).roundedMantissa = a * 2 ^ (r - d) := by
    rw [roundedMantissa_shiftRight, hsplit, nearest_mul]
  refine ⟨_, _, hcanonical, roundWithAccuracy_of_canonical s hshift hrounded hcanonical, ?_⟩
  have hexp : e + (r : ℤ) = (r - d : ℕ) + (e + d) := by omega
  rw [hexp, zpow_add₀ (by norm_num) ((r - d : ℕ) : ℤ), zpow_natCast]
  push_cast
  ring

/-- Neither is it where its exponent is lowered first. -/
theorem round_exact {a r : ℕ} {e : ℤ} (s : Sign) (ha : 0 < a) (hlt : a < 2 ^ 53)
    (hleast : -1074 ≤ e + r) :
    ∃ (m' : ℕ) (e' : ℤ) (hc : Canonical m' e'),
      UnpackedFloat.round Format.binary64 s (a * 2 ^ r) e = .finite s m' e' hc.pos ∧
        (m' : ℚ) * 2 ^ e' = a * 2 ^ (e + r) := by
  have hpos : 0 < a * 2 ^ r := Nat.mul_pos ha (Nat.two_pow_pos r)
  obtain ⟨k, hk⟩ : ∃ k : ℕ,
      (e - max (((a * 2 ^ r).log2 : ℤ) + 1 + e - 53) (-1074)).toNat = k := ⟨_, rfl⟩
  have hlower : decreaseExponent (a * 2 ^ r) e
      (Format.binary64.targetExponent (totalExponent (a * 2 ^ r) e)) =
        (a * 2 ^ (r + k), e - k) := by
    unfold decreaseExponent
    simp only [targetExponent_eq, hk, Nat.shiftLeft_eq, Nat.mul_assoc, ← Nat.pow_add]
  have hfull : 2 ^ 52 ≤ a * 2 ^ (r + k) ∨ e - k ≤ -1074 := by
    rcases Int.lt_or_le (-1074) (e - k) with hnormal | hsubnormal
    · left
      have hbound : 2 ^ (52 - k) ≤ a * 2 ^ r := (Nat.le_log2 hpos.ne').1 (by omega)
      calc 2 ^ 52 ≤ 2 ^ (52 - k + k) := Nat.pow_le_pow_right (by decide) (by omega)
        _ = 2 ^ (52 - k) * 2 ^ k := Nat.pow_add 2 _ _
        _ ≤ a * 2 ^ r * 2 ^ k := Nat.mul_le_mul_right _ hbound
        _ = a * 2 ^ (r + k) := by rw [Nat.mul_assoc, ← Nat.pow_add]
    · exact Or.inr hsubnormal
  have hexp : e - (k : ℤ) + ((r + k : ℕ) : ℤ) = e + r := by omega
  obtain ⟨m', e', hc, hround, hvalue⟩ :=
    roundWithAccuracy_exact s ha hlt (by omega : -1074 ≤ e - (k : ℤ) + (r + k : ℕ)) hfull
  refine ⟨m', e', hc, ?_, by rw [hvalue, hexp]⟩
  unfold UnpackedFloat.round
  simp only [hlower, hround]

/-- A canonical pair of a smaller exponent is the smaller number. -/
theorem Canonical.lt_of_exponent_lt {m n : ℕ} {e f : ℤ} (hm : Canonical m e) (hn : Canonical n f)
    (h : e < f) : (m : ℚ) * 2 ^ e < n * 2 ^ f := by
  have hnormal : 2 ^ 52 ≤ n := hn.normal.resolve_right (by have := hm.least; omega)
  have hsig : (m : ℚ) < 2 ^ 53 := by exact_mod_cast hm.lt
  have hsig' : (2 : ℚ) ^ 52 ≤ n := by exact_mod_cast hnormal
  have hstep : (2 : ℚ) ^ (e + 1) = 2 ^ e * 2 := zpow_add_one₀ (by norm_num) e
  calc (m : ℚ) * 2 ^ e < 2 ^ 53 * 2 ^ e := mul_lt_mul_of_pos_right hsig (by positivity)
    _ = 2 ^ 52 * 2 ^ (e + 1) := by rw [hstep]; ring
    _ ≤ 2 ^ 52 * 2 ^ f :=
      mul_le_mul_of_nonneg_left (zpow_le_zpow_right₀ (by norm_num) h) (by positivity)
    _ ≤ n * 2 ^ f := mul_le_mul_of_nonneg_right hsig' (by positivity)

/-- **A number is kept as one canonical pair only.** -/
theorem Canonical.unique {m n : ℕ} {e f : ℤ} (hm : Canonical m e) (hn : Canonical n f)
    (h : (m : ℚ) * 2 ^ e = n * 2 ^ f) : m = n ∧ e = f := by
  have heq : e = f := by
    refine le_antisymm (not_lt.1 fun hlt => ?_) (not_lt.1 fun hlt => ?_)
    · exact (hn.lt_of_exponent_lt hm hlt).ne' h
    · exact (hm.lt_of_exponent_lt hn hlt).ne h
  subst heq
  have hunit : (2 : ℚ) ^ e ≠ 0 := by positivity
  exact ⟨by exact_mod_cast mul_right_cancel₀ hunit h, rfl⟩

/-! ## Exact products and sums -/

/-- The positive number `q` as the pair a double keeps, whatever its exponent. -/
def Keeps (u : UnpackedFloat) (q : ℚ) : Prop :=
  ∃ (m : ℕ) (e : ℤ) (hc : Canonical m e), u = .finite .positive m e hc.pos ∧ (m : ℚ) * 2 ^ e = q

/-- The number has at most 53 significant bits and no bit below the least one. -/
def Fits (q : ℚ) : Prop := ∃ (a : ℕ) (f : ℤ), 0 < a ∧ a < 2 ^ 53 ∧ -1074 ≤ f ∧ q = a * 2 ^ f

theorem Canonical.fits {m : ℕ} {e : ℤ} (h : Canonical m e) : Fits (m * 2 ^ e) :=
  ⟨m, e, h.pos, h.lt, h.least, rfl⟩

theorem Keeps.unique {u v : UnpackedFloat} {q : ℚ} (hu : Keeps u q) (hv : Keeps v q) : u = v := by
  obtain ⟨m, e, hm, rfl, rfl⟩ := hu
  obtain ⟨n, f, hn, rfl, h⟩ := hv
  obtain ⟨rfl, rfl⟩ := hn.unique hm h
  rfl

/-- A whole number times a power of two that fits is a short significand, shifted. -/
theorem exists_mul_two_pow {m : ℕ} {e : ℤ} (hm : 0 < m) (h : Fits (m * 2 ^ e)) :
    ∃ a r : ℕ, m = a * 2 ^ r ∧ 0 < a ∧ a < 2 ^ 53 ∧ -1074 ≤ e + r := by
  obtain ⟨a, f, ha, hlt, hf, h⟩ := h
  have hunit : ∀ g : ℤ, (2 : ℚ) ^ g ≠ 0 := fun g => by positivity
  rcases le_or_gt e f with hle | hgt
  · obtain ⟨r, rfl⟩ : ∃ r : ℕ, f = e + r := ⟨(f - e).toNat, by omega⟩
    refine ⟨a, r, ?_, ha, hlt, hf⟩
    have hq : (m : ℚ) = a * 2 ^ r := by
      rw [add_comm, zpow_add₀ (by norm_num), zpow_natCast, ← mul_assoc] at h
      exact mul_right_cancel₀ (hunit e) h
    exact_mod_cast hq
  · obtain ⟨r, rfl⟩ : ∃ r : ℕ, e = f + r := ⟨(e - f).toNat, by omega⟩
    have hq : (m : ℚ) * 2 ^ r = a := by
      rw [add_comm, zpow_add₀ (by norm_num), zpow_natCast, ← mul_assoc] at h
      exact mul_right_cancel₀ (hunit f) h
    have hnat : m * 2 ^ r = a := by exact_mod_cast hq
    have hle : m ≤ a := by
      rw [← hnat]
      exact Nat.le_mul_of_pos_right m (Nat.two_pow_pos r)
    exact ⟨m, 0, by simp, hm, by omega, by omega⟩

/-- **A product that fits is exact.** -/
theorem keeps_mul {u v : UnpackedFloat} {q r : ℚ} (hu : Keeps u q) (hv : Keeps v r)
    (h : Fits (q * r)) : Keeps (UnpackedFloat.mul Format.binary64 u v) (q * r) := by
  obtain ⟨m, e, hm, rfl, rfl⟩ := hu
  obtain ⟨n, f, hn, rfl, rfl⟩ := hv
  have hvalue : (m : ℚ) * 2 ^ e * (n * 2 ^ f) = (m * n : ℕ) * 2 ^ (e + f) := by
    rw [zpow_add₀ (by norm_num)]
    push_cast
    ring
  rw [hvalue] at h ⊢
  obtain ⟨a, k, hak, ha, hlt, hleast⟩ := exists_mul_two_pow (Nat.mul_pos hm.pos hn.pos) h
  have hfull : 2 ^ 52 ≤ a * 2 ^ k ∨ e + f ≤ -1074 := by
    rw [← hak]
    rcases hm.normal with hnormal | he
    · exact Or.inl (hnormal.trans (Nat.le_mul_of_pos_right m hn.pos))
    · rcases hn.normal with hnormal | hf
      · exact Or.inl (hnormal.trans (Nat.le_mul_of_pos_left n hm.pos))
      · right
        omega
  obtain ⟨m', e', hc, hround, hexact⟩ := roundWithAccuracy_exact .positive ha hlt hleast hfull
  refine ⟨m', e', hc, ?_, ?_⟩
  · rw [← hround, ← hak]
    rfl
  · rw [hexact, hak, add_comm (e + f), zpow_add₀ (by norm_num), zpow_natCast]
    push_cast
    ring

/-- **A sum that fits is exact.** -/
theorem keeps_add {u v : UnpackedFloat} {q r : ℚ} (hu : Keeps u q) (hv : Keeps v r)
    (h : Fits (q + r)) : Keeps (UnpackedFloat.add Format.binary64 u v) (q + r) := by
  obtain ⟨m, e, hm, rfl, rfl⟩ := hu
  obtain ⟨n, f, hn, rfl, rfl⟩ := hv
  have hvalue : (m : ℚ) * 2 ^ e + n * 2 ^ f =
      (m * 2 ^ (e - f).toNat + n * 2 ^ (f - e).toNat : ℕ) * 2 ^ (e - (e - f).toNat) := by
    have he : (2 : ℚ) ^ e = 2 ^ (e - f).toNat * 2 ^ (e - (e - f).toNat) := by
      rw [← zpow_natCast, ← zpow_add₀ (by norm_num)]
      congr 1
      omega
    have hf : (2 : ℚ) ^ f = 2 ^ (f - e).toNat * 2 ^ (e - (e - f).toNat) := by
      rw [← zpow_natCast, ← zpow_add₀ (by norm_num)]
      congr 1
      omega
    rw [he, hf]
    push_cast
    ring
  have hpos : 0 < m * 2 ^ (e - f).toNat + n * 2 ^ (f - e).toNat :=
    Nat.add_pos_left (Nat.mul_pos hm.pos (Nat.two_pow_pos _)) _
  rw [hvalue] at h ⊢
  obtain ⟨a, k, hak, ha, hlt, hleast⟩ := exists_mul_two_pow hpos h
  obtain ⟨m', e', hc, hround, hexact⟩ := round_exact .positive ha hlt hleast
  refine ⟨m', e', hc, ?_, ?_⟩
  · rw [add_finite, hak, hround]
  · rw [hexact, hak, add_comm (e - _), zpow_add₀ (by norm_num), zpow_natCast]
    push_cast
    ring

/-! ## Doubles -/

/-- The double that a result is rounded to. -/
def ofReading (u : UnpackedFloat) : Float := Float.ofModel (Float.Model.pack u)

theorem reading_ofReading (u : UnpackedFloat) : reading (ofReading u) = stored u := by
  rfl

theorem mul_eq (x y : Float) :
    x * y = ofReading (UnpackedFloat.mul Format.binary64 (reading x) (reading y)) := by
  rfl

theorem add_eq (x y : Float) :
    x + y = ofReading (UnpackedFloat.add Format.binary64 (reading x) (reading y)) := by
  rfl

/-- The first power of two beyond the doubles. -/
def beyond : ℚ := 2 ^ 53 * 2 ^ (971 : ℤ)

theorem Canonical.value_lt_beyond {m : ℕ} {e : ℤ} (h : Canonical m e) (hle : e ≤ 971) :
    (m : ℚ) * 2 ^ e < beyond := by
  have hm : (m : ℚ) < 2 ^ 53 := by exact_mod_cast h.lt
  calc (m : ℚ) * 2 ^ e < 2 ^ 53 * 2 ^ e := mul_lt_mul_of_pos_right hm (by positivity)
    _ ≤ 2 ^ 53 * 2 ^ (971 : ℤ) :=
      mul_le_mul_of_nonneg_left (zpow_le_zpow_right₀ (by norm_num) hle) (by positivity)

theorem Canonical.beyond_le_value {m : ℕ} {e : ℤ} (h : Canonical m e) (hgt : 971 < e) :
    beyond ≤ m * 2 ^ e := by
  have hnormal : 2 ^ 52 ≤ m := h.normal.resolve_right (by omega)
  have hm : (2 : ℚ) ^ 52 ≤ m := by exact_mod_cast hnormal
  have hstep : (2 : ℚ) ^ (971 + 1 : ℤ) = 2 ^ (971 : ℤ) * 2 := zpow_add_one₀ (by norm_num) _
  calc beyond = 2 ^ 52 * 2 ^ (971 + 1 : ℤ) := by
        rw [hstep, beyond, pow_succ]
        ring
    _ ≤ 2 ^ 52 * 2 ^ e :=
      mul_le_mul_of_nonneg_left (zpow_le_zpow_right₀ (by norm_num) hgt) (by positivity)
    _ ≤ m * 2 ^ e := mul_le_mul_of_nonneg_right hm (by positivity)

/-- A number that is kept is stored as it is, or it is beyond the doubles and becomes infinite. -/
theorem Keeps.stored {u : UnpackedFloat} {q : ℚ} (h : Keeps u q) :
    q < beyond ∧ stored u = u ∨
      beyond ≤ q ∧ ofReading u = ofReading (.infinity .positive) := by
  obtain ⟨m, e, hc, rfl, rfl⟩ := h
  rcases le_or_gt e 971 with hle | hgt
  · exact Or.inl ⟨hc.value_lt_beyond hle, stored_finite _ hc hle⟩
  · refine Or.inr ⟨hc.beyond_le_value hgt, ?_⟩
    have hpack := pack_overflow .positive hc.pos hgt
    unfold ofReading Float.Model.pack
    congr 2
    exact congrArg UInt64.ofBitVec hpack

/-- **A count of at most 53 bits is exact.** -/
theorem keeps_ofCount {n : ℕ} (hpos : 0 < n) (hlt : n < 2 ^ 53) :
    Keeps (reading (ofCount n)) n := by
  have hword : n.toUInt64.toNat = n := by
    rw [Nat.toUInt64_eq, UInt64.toNat_ofNat']
    exact Nat.mod_eq_of_lt (by omega)
  obtain ⟨m, e, hc, hround, hexact⟩ :=
    round_exact (r := 0) (e := 0) .positive hpos hlt (by norm_num)
  have hresult : UnpackedFloat.normalize Format.binary64 (n : ℤ) 0 .positive =
      .finite .positive m e hc.pos := by
    have hcompare : compare (n : ℤ) 0 = .gt := Int.compare_eq_gt.2 (by exact_mod_cast hpos)
    unfold UnpackedFloat.normalize
    rw [hcompare]
    simpa using hround
  have hvalue : Keeps (.finite .positive m e hc.pos) n := ⟨m, e, hc, rfl, by simpa using hexact⟩
  have hreading := reading_ofCount n
  rw [hword, hresult] at hreading
  rcases hvalue.stored with ⟨_, hsame⟩ | ⟨hlarge, _⟩
  · rw [hreading, hsame]
    exact hvalue
  · have hn : (n : ℚ) < 2 ^ 53 := by exact_mod_cast hlt
    have hgap : (2 : ℚ) ^ 53 ≤ beyond :=
      le_mul_of_one_le_right (by positivity) (one_le_zpow₀ (by norm_num) (by norm_num))
    linarith

theorem reading_ofCount_zero : reading (ofCount 0) = .zero .positive := by
  have hzero : ofCount 0 = 0 := by decide +kernel
  rw [hzero, reading_zero]

/-- Where all multiples up to the next one fit, it is had by addition as well. -/
theorem ofCount_mul_add_of_fits {x : Float} {q : ℚ} {n : ℕ} (hx : Keeps (reading x) q)
    (hfits : ∀ k, 0 < k → k ≤ n + 1 → Fits (k * q)) (hn : n + 1 < 2 ^ 53) :
    ofCount n * x + x = ofCount (n + 1) * x := by
  have hnext : Keeps (UnpackedFloat.mul Format.binary64 (reading (ofCount (n + 1))) (reading x))
      ((n + 1 : ℕ) * q) :=
    keeps_mul (keeps_ofCount n.succ_pos hn) hx (hfits _ n.succ_pos le_rfl)
  rcases Nat.eq_zero_or_pos n with rfl | hpos
  · obtain ⟨m, e, hc, hu, _⟩ := id hx
    have hzero : reading (ofCount 0 * x) = .zero .positive := by
      rw [mul_eq, reading_ofReading, hu, reading_ofCount_zero]
      exact stored_zero .positive
    have hsum : UnpackedFloat.add Format.binary64 (reading (ofCount 0 * x)) (reading x) =
        reading x := by
      rw [hzero, hu]
      rfl
    have hone : ((0 + 1 : ℕ) : ℚ) * q = q := by simp
    rw [hone] at hnext
    rw [add_eq, hsum, mul_eq]
    exact congrArg ofReading (hx.unique hnext)
  · have hthis : Keeps (UnpackedFloat.mul Format.binary64 (reading (ofCount n)) (reading x))
        (n * q) :=
      keeps_mul (keeps_ofCount hpos (by omega)) hx (hfits n hpos (by omega))
    have hsucc : (n : ℚ) * q + q = (n + 1 : ℕ) * q := by
      push_cast
      ring
    rcases hthis.stored with ⟨_, hsame⟩ | ⟨hlarge, hinfinite⟩
    · have hreading : reading (ofCount n * x) =
          UnpackedFloat.mul Format.binary64 (reading (ofCount n)) (reading x) := by
        rw [mul_eq, reading_ofReading, hsame]
      have hsum := keeps_add hthis hx (by rw [hsucc]; exact hfits _ n.succ_pos le_rfl)
      rw [hsucc] at hsum
      rw [add_eq, hreading, hsum.unique hnext, ← mul_eq]
    · -- beyond the largest double both are infinite
      obtain ⟨m, e, hc, hu, hq⟩ := id hx
      have hpositive : 0 < q := by
        have hm : (0 : ℚ) < m := by exact_mod_cast hc.pos
        rw [← hq]
        positivity
      have hreading : reading (ofCount n * x) = .infinity .positive := by
        rw [mul_eq, hinfinite, reading_ofReading]
        rfl
      have hsum : UnpackedFloat.add Format.binary64 (reading (ofCount n * x)) (reading x) =
          .infinity .positive := by
        rw [hreading, hu]
        rfl
      rcases hnext.stored with ⟨hsmall, _⟩ | ⟨_, hinfinite'⟩
      · rw [← hsucc] at hsmall
        linarith
      · rw [add_eq, hsum, mul_eq, hinfinite']

theorem keeps_of_exact_pos {x : Float} (h : 0 < exact x) : Keeps (reading x) (exact x) := by
  unfold exact at h ⊢
  cases hu : reading x with
  | notANumber => simp [hu] at h
  | zero s => simp [hu] at h
  | infinity s => simp [hu] at h
  | finite s m e hm =>
    simp only [hu] at h ⊢
    have hc := (canonical_of_unpack hu).1
    cases s with
    | positive => exact ⟨m, e, hc, rfl, by simp [Sign.apply]⟩
    | negative =>
      -- a negative double is not above zero
      have hq : (0 : ℚ) < (m : ℚ) * 2 ^ e := mul_pos (by exact_mod_cast hm) (by positivity)
      simp only [Sign.apply, Int.cast_neg, Int.cast_natCast, neg_mul] at h
      linarith

/-- A multiple of a kept number fits if the significands of both are short. -/
theorem Keeps.fits_mul {u : UnpackedFloat} {a k : ℕ} {f : ℤ} (h : Keeps u (a * 2 ^ f))
    (hk : 0 < k) (hlt : k * a < 2 ^ 53) : Fits (k * (a * 2 ^ f)) := by
  obtain ⟨m, e, hc, _, hq⟩ := h
  have hfits : Fits (m * 2 ^ e) := hc.fits
  have hunit : (0 : ℚ) < 2 ^ f := by positivity
  have ha : 0 < a := by
    have hm : (0 : ℚ) < m := by exact_mod_cast hc.pos
    have hpos : (0 : ℚ) < a * 2 ^ f := by
      rw [← hq]
      positivity
    exact_mod_cast (mul_pos_iff_of_pos_right hunit).1 hpos
  rw [hq] at hfits
  obtain ⟨b, r, rfl, hb, _, hleast⟩ := exists_mul_two_pow ha hfits
  refine ⟨k * b, f + r, Nat.mul_pos hk hb, ?_, hleast, ?_⟩
  · have hle : k * b ≤ k * (b * 2 ^ r) :=
      Nat.mul_le_mul_left k (Nat.le_mul_of_pos_right b (Nat.two_pow_pos r))
    omega
  · rw [zpow_add₀ (by norm_num), zpow_natCast]
    push_cast
    ring

/-- **The next multiple of a double**, by addition and by multiplication, is one double as long as
the significant bits of the double and of the factor fit together. -/
theorem ofCount_mul_add {x : Float} {a n : ℕ} {f : ℤ} (ha : 0 < a) (hx : exact x = a * 2 ^ f)
    (hlt : (n + 1) * a < 2 ^ 53) : ofCount n * x + x = ofCount (n + 1) * x := by
  have hpos : 0 < exact x := by
    have hq : (0 : ℚ) < a := by exact_mod_cast ha
    rw [hx]
    positivity
  have hkeeps := keeps_of_exact_pos hpos
  rw [hx] at hkeeps
  refine ofCount_mul_add_of_fits hkeeps (fun k hk hle => hkeeps.fits_mul hk ?_) ?_
  · exact (Nat.mul_le_mul_right a hle).trans_lt hlt
  · exact (Nat.le_mul_of_pos_right _ ha).trans_lt hlt

end Machining.Double
