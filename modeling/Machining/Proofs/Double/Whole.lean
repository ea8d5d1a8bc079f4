import Machining.Proofs.Double.Order

/-!
# Whole doubles

A whole number of at most 53 bits is a double, and so is the greatest whole number below a double,
whatever its size: a double that is not whole has a fraction, which leaves at most 52 bits for what
stands before it.  Counting a double cuts off its fraction and stops at the two ends of the words.

* `floor` — the greatest whole number that is at most a double, as a double;
* `denotes_floor` — nothing is rounded by that;
* `Denotes.sub` — a difference that fits is exact;
* `floorCount_of_finite` — the count of a finite double.
-/

set_option autoImplicit false

namespace Machining.Double

open Float.Model
open Float.Model.UnpackedFloat (Sign decreaseExponent shiftToExponent roundToInt)

/-! ## Numbers that fit -/

/-- The number is one of a double: zero, or of a magnitude that fits in 53 bits and is not beyond
the doubles. -/
def Representable (q : ℚ) : Prop := q = 0 ∨ Fits |q| ∧ |q| < beyond

theorem fits_of_le {n : ℕ} (hpos : 0 < n) (hle : n ≤ 2 ^ 53) : Fits n := by
  rcases hle.lt_or_eq with hlt | rfl
  · exact ⟨n, 0, hpos, hlt, by norm_num, by simp⟩
  · exact ⟨1, 53, by norm_num, by norm_num, by norm_num, by norm_num⟩

theorem representable_of_natAbs_le {k : ℤ} (h : k.natAbs ≤ 2 ^ 53) : Representable k := by
  rcases eq_or_ne k 0 with rfl | hk
  · exact Or.inl Int.cast_zero
  · have hcast : |(k : ℚ)| = k.natAbs := by rw [Nat.cast_natAbs, Int.cast_abs]
    have hmax : (2 : ℚ) ^ 53 * 1 < beyond :=
      mul_lt_mul_of_pos_left (one_lt_zpow₀ (by norm_num) (by norm_num)) (by positivity)
    have hle : (k.natAbs : ℚ) ≤ 2 ^ 53 := by exact_mod_cast h
    rw [Representable, hcast]
    exact Or.inr ⟨fits_of_le (Int.natAbs_pos.2 hk) h, by linarith⟩

/-! ## Results that are not rounded -/

theorem apply_congr {m n : ℕ} {e f : ℤ} (s : Sign) (h : (m : ℚ) * 2 ^ e = n * 2 ^ f) :
    (s.apply m : ℚ) * 2 ^ e = s.apply n * 2 ^ f := by
  cases s with
  | negative => simp only [Sign.apply, Int.cast_neg, Int.cast_natCast, neg_mul, h]
  | positive => simp only [Sign.apply, Int.cast_natCast, h]

theorem denotes_ofReading {m : ℕ} {e : ℤ} (s : Sign) (hc : Canonical m e) (hle : e ≤ 971) :
    Denotes (ofReading (.finite s m e hc.pos)) (s.apply m * 2 ^ e) := by
  have hreading : reading (ofReading (.finite s m e hc.pos)) = .finite s m e hc.pos := by
    rw [reading_ofReading, stored_finite s hc hle]
  constructor
  · rw [isFinite_eq, hreading]
    rfl
  · unfold exact
    rw [hreading]

theorem denotes_round {n : ℕ} {e : ℤ} (s : Sign) (hpos : 0 < n) (hfits : Fits (n * 2 ^ e))
    (hlt : (n : ℚ) * 2 ^ e < beyond) :
    Denotes (ofReading (UnpackedFloat.round Format.binary64 s n e)) (s.apply n * 2 ^ e) := by
  obtain ⟨a, r, rfl, ha, hshort, hleast⟩ := exists_mul_two_pow hpos hfits
  obtain ⟨m, f, hc, hround, hvalue⟩ := round_exact s ha hshort hleast
  have hsame : (m : ℚ) * 2 ^ f = (a * 2 ^ r : ℕ) * 2 ^ e := by
    rw [hvalue, add_comm, zpow_add₀ (by norm_num), zpow_natCast]
    push_cast
    ring
  have hle : f ≤ 971 := by
    by_contra hgt
    have hbeyond := hc.beyond_le_value (not_le.1 hgt)
    rw [hsame] at hbeyond
    exact absurd hlt (not_lt.2 hbeyond)
  rw [hround, ← apply_congr s hsame]
  exact denotes_ofReading s hc hle

theorem normalize_eq {k : ℤ} (hk : k ≠ 0) (e : ℤ) : ∃ s : Sign, s.apply k.natAbs = k ∧
    UnpackedFloat.normalize Format.binary64 k e .positive =
      UnpackedFloat.round Format.binary64 s k.natAbs e := by
  unfold UnpackedFloat.normalize
  rcases hk.lt_or_gt with hneg | hpos
  · have hnat : (-k).toNat = k.natAbs := by omega
    refine ⟨.negative, ?_, ?_⟩
    · simp only [Sign.apply]
      omega
    · rw [Int.compare_eq_lt.2 hneg]
      simp only [hnat]
  · have hnat : k.toNat = k.natAbs := by omega
    refine ⟨.positive, ?_, ?_⟩
    · simp only [Sign.apply]
      omega
    · rw [Int.compare_eq_gt.2 hpos]
      simp only [hnat]

theorem denotes_zero (s : Sign) : Denotes (ofReading (.zero s)) 0 := by
  cases s <;> exact ⟨rfl, rfl⟩

/-- **A whole number times a power of two is not rounded** if it fits. -/
theorem denotes_normalize {k e : ℤ} (h : Representable (k * 2 ^ e)) :
    Denotes (ofReading (UnpackedFloat.normalize Format.binary64 k e .positive)) (k * 2 ^ e) := by
  have hunit : (0 : ℚ) < 2 ^ e := by positivity
  rcases eq_or_ne k 0 with rfl | hk
  · rw [Int.cast_zero, zero_mul]
    exact denotes_zero .positive
  · obtain ⟨hfits, hlt⟩ := h.resolve_left (mul_ne_zero (by exact_mod_cast hk) hunit.ne')
    have habs : |(k : ℚ) * 2 ^ e| = k.natAbs * 2 ^ e := by
      rw [abs_mul, abs_of_pos hunit, Nat.cast_natAbs, Int.cast_abs]
    rw [habs] at hfits hlt
    obtain ⟨s, hsign, hround⟩ := normalize_eq hk e
    have hdenotes := denotes_round s (Int.natAbs_pos.2 hk) hfits hlt
    rwa [hsign, ← hround] at hdenotes

/-! ## Differences -/

theorem decreaseExponent_value (s : Sign) (m : ℕ) {e f : ℤ} (h : f ≤ e) :
    (s.apply (decreaseExponent m e f).1 : ℚ) * 2 ^ f = s.apply m * 2 ^ e := by
  refine apply_congr s ?_
  have hexp : e = (e - f).toNat + f := by omega
  unfold decreaseExponent
  dsimp only
  rw [Nat.shiftLeft_eq]
  conv_rhs => rw [hexp, zpow_add₀ (by norm_num), zpow_natCast]
  push_cast
  ring

theorem sub_eq (x y : Float) :
    x - y = ofReading (UnpackedFloat.sub Format.binary64 (reading x) (reading y)) := by
  rfl

/-- **A difference that fits is exact.** -/
theorem Denotes.sub {x y : Float} {q r : ℚ} (hx : Denotes x q) (hy : Denotes y r)
    (h : Representable (q - r)) : Denotes (x - y) (q - r) := by
  obtain ⟨hxf, rfl⟩ := hx
  obtain ⟨hyf, rfl⟩ := hy
  rw [sub_eq]
  rcases finite_cases hxf with ⟨s, hu, hq⟩ | ⟨s, m, e, hm, hme, hu, hq⟩ <;>
    rcases finite_cases hyf with ⟨t, hv, hr⟩ | ⟨t, n, f, hn, hnf, hv, hr⟩ <;>
    rw [hu, hv, hq, hr] <;> rw [hq, hr] at h
  case inl.inl =>
    rw [sub_zero]
    cases s <;> cases t <;> exact denotes_zero _
  case inl.inr =>
    have hneg : -((t.apply n : ℤ) : ℚ) = (-t).apply n := by
      cases t
      · exact_mod_cast neg_neg _
      · exact_mod_cast rfl
    rw [zero_sub, ← neg_mul, hneg]
    exact denotes_ofReading (-t) hn hnf
  case inr.inl =>
    rw [sub_zero]
    exact denotes_ofReading s hm hme
  case inr.inr =>
    -- both significands are brought to the smaller exponent, where they are subtracted
    have hvalue : ((s.apply (decreaseExponent m e (min e f)).1 -
        t.apply (decreaseExponent n f (min e f)).1 : ℤ) : ℚ) * 2 ^ min e f =
          s.apply m * 2 ^ e - t.apply n * 2 ^ f := by
      rw [← decreaseExponent_value s m (min_le_left e f),
        ← decreaseExponent_value t n (min_le_right e f), ← sub_mul, Int.cast_sub]
    rw [← hvalue] at h ⊢
    exact denotes_normalize h

/-! ## Counts -/

/-- **A count that fits is exact.** -/
theorem denotes_ofCount_of_representable {n : ℕ} (hword : n < UInt64.size)
    (h : Representable n) : Denotes (ofCount n) n := by
  have hsame : n.toUInt64.toNat = n := by
    rw [Nat.toUInt64_eq, UInt64.toNat_ofNat']
    exact Nat.mod_eq_of_lt hword
  have hcount : ofCount n =
      ofReading (UnpackedFloat.normalize Format.binary64 (n.toUInt64.toNat : ℤ) 0 .positive) := rfl
  have hexact : Representable (((n : ℤ) : ℚ) * 2 ^ (0 : ℤ)) := by
    rwa [zpow_zero, mul_one, Int.cast_natCast]
  have hdenotes := denotes_normalize hexact
  rw [zpow_zero, mul_one, Int.cast_natCast] at hdenotes
  rwa [hcount, hsame]

/-- A count of at most `2 ^ 53` is exact. -/
theorem denotes_ofCount {n : ℕ} (h : n ≤ 2 ^ 53) : Denotes (ofCount n) n := by
  have hfits : Representable ((n : ℤ) : ℚ) := representable_of_natAbs_le (by omega)
  rw [Int.cast_natCast] at hfits
  exact denotes_ofCount_of_representable (h.trans_lt (by decide)) hfits

theorem denotes_zero_literal : Denotes 0 0 := denotes_zero .positive

theorem denotes_one_literal : Denotes 1 1 := by
  have hone : (1 : Float) = ofCount 1 := rfl
  rw [hone]
  exact_mod_cast denotes_ofCount (n := 1) (by norm_num)

/-- The bits of a pair that stand before the point. -/
theorem floor_pair (m : ℕ) (e : ℤ) :
    ⌊(m : ℚ) * 2 ^ e⌋₊ = m * 2 ^ e.toNat / 2 ^ (-e).toNat := by
  have hpow : (2 : ℚ) ^ e = 2 ^ e.toNat / 2 ^ (-e).toNat := by
    rw [← zpow_natCast, ← zpow_natCast, ← zpow_sub₀ (by norm_num)]
    congr 1
    omega
  rw [hpow, ← mul_div_assoc]
  exact_mod_cast Nat.floor_div_eq_div (K := ℚ) (m * 2 ^ e.toNat) (2 ^ (-e).toNat)

theorem roundToInt_eq (s : Sign) (m : ℕ) (e : ℤ) :
    roundToInt s m e = s.apply ⌊(m : ℚ) * 2 ^ e⌋₊ := by
  have hshift : (0 - (e - (e.toNat : ℤ))).toNat = (-e).toNat := by omega
  rw [floor_pair]
  unfold roundToInt decreaseExponent shiftToExponent
  simp only [sub_zero, hshift, shiftRight_eq, Nat.shiftLeft_eq]

theorem floorCount_eq (x : Float) : floorCount x =
    min ((reading x).toInt 0 (UInt64.size - 1)).toNat largestCount := by
  change (UInt64.ofNatClamp ((reading x).toInt 0 (UInt64.size - 1)).toNat).toNat = _
  generalize ((reading x).toInt 0 (UInt64.size - 1)).toNat = n
  unfold UInt64.ofNatClamp largestCount
  split
  · rename_i h
    rw [UInt64.toNat_ofNatLT]
    omega
  · rename_i h
    rw [UInt64.toNat_ofNatLT]
    omega

/-- **The count of a finite double** is the whole number below it, zero for a negative one, and at
most the largest word. -/
theorem floorCount_of_finite {x : Float} (hx : x.isFinite = true) :
    floorCount x = min ⌊exact x⌋₊ largestCount := by
  rw [floorCount_eq]
  rcases finite_cases hx with ⟨s, hu, hq⟩ | ⟨s, m, e, hc, -, hu, hq⟩
  · rw [hu, hq, Nat.floor_zero]
    rfl
  · rw [hu, hq]
    simp only [UnpackedFloat.toInt, roundToInt_eq]
    have hpos := hc.value_pos
    -- counting rounds towards zero, which for a negative double is not its floor
    cases s with
    | positive =>
      simp only [Sign.apply, Int.toNat_natCast, Int.cast_natCast]
    | negative =>
      have hnonpos : ((-(m : ℤ) : ℤ) : ℚ) * 2 ^ e ≤ 0 := by
        push_cast
        linarith
      simp only [Sign.apply]
      rw [Nat.floor_of_nonpos hnonpos]
      omega

theorem Denotes.floorCount {x : Float} {q : ℚ} (h : Denotes x q) :
    floorCount x = min ⌊q⌋₊ largestCount := by
  rw [floorCount_of_finite h.1, h.2]

/-! ## Floors -/

/-- The double nearest to a whole number. -/
def ofWhole (k : ℤ) : Float :=
  ofReading (UnpackedFloat.normalize Format.binary64 k 0 .positive)

/-- The greatest whole number that is at most `x`, as a double.  Zeros, infinite and undefined
doubles stay as they are. -/
def floor (x : Float) : Float :=
  match reading x with
  | .finite .. => ofWhole ⌊exact x⌋
  | _ => x

/-- The whole number below a double is a double. -/
theorem representable_floor {s : Sign} {m : ℕ} {e : ℤ} (hc : Canonical m e) (hle : e ≤ 971) :
    Representable ⌊(s.apply m : ℚ) * 2 ^ e⌋ := by
  have habs : |(s.apply m : ℚ) * 2 ^ e| = m * 2 ^ e := by
    rw [abs_mul, abs_of_pos (by positivity : (0 : ℚ) < 2 ^ e)]
    cases s <;> simp [Sign.apply]
  rcases Int.lt_or_le e 0 with hneg | hnonneg
  · -- a fraction leaves at most 52 bits before the point
    have hhalf : (2 : ℚ) ^ e ≤ 2 ^ (-1 : ℤ) := zpow_le_zpow_right₀ (by norm_num) (by omega)
    have hm : (m : ℚ) ≤ 2 ^ 53 := by exact_mod_cast hc.lt.le
    have hsmall : |(s.apply m : ℚ) * 2 ^ e| ≤ 2 ^ 52 := by
      calc |(s.apply m : ℚ) * 2 ^ e| = m * 2 ^ e := habs
        _ ≤ 2 ^ 53 * 2 ^ (-1 : ℤ) := mul_le_mul hm hhalf (by positivity) (by positivity)
        _ = 2 ^ 52 := by norm_num
    obtain ⟨hlow, hhigh⟩ := abs_le.1 hsmall
    have hfloor : -2 ^ 52 ≤ ⌊(s.apply m : ℚ) * 2 ^ e⌋ := Int.le_floor.2 (by exact_mod_cast hlow)
    have hfloor' : ⌊(s.apply m : ℚ) * 2 ^ e⌋ ≤ 2 ^ 52 := by
      exact_mod_cast (Int.floor_le _).trans hhigh
    exact representable_of_natAbs_le (by omega)
  · have hwhole : (s.apply m : ℚ) * 2 ^ e = (s.apply m * 2 ^ e.toNat : ℤ) := by
      push_cast
      rw [← zpow_natCast, Int.toNat_of_nonneg hnonneg]
    -- without a fraction the double is its own floor
    rw [hwhole, Int.floor_intCast, ← hwhole, Representable, habs]
    exact Or.inr ⟨hc.fits, hc.value_lt_beyond hle⟩

/-- **The floor of a finite double is not rounded.** -/
theorem denotes_floor {x : Float} (hx : x.isFinite = true) :
    Denotes (floor x) (⌊exact x⌋ : ℤ) := by
  unfold floor
  rcases finite_cases hx with ⟨s, hu, hq⟩ | ⟨s, m, e, hc, hle, hu, hq⟩
  · rw [hu, hq, Int.floor_zero, Int.cast_zero]
    exact ⟨hx, hq⟩
  · have hexact : Representable ((⌊exact x⌋ : ℤ) * 2 ^ (0 : ℤ)) := by
      rw [zpow_zero, mul_one, hq]
      exact representable_floor hc hle
    rw [hu]
    have hdenotes := denotes_normalize hexact
    rwa [zpow_zero, mul_one] at hdenotes

theorem floor_of_not_finite {x : Float} (hx : x.isFinite ≠ true) : floor x = x := by
  unfold floor
  rcases not_finite_cases hx with hu | hu | hu <;> rw [hu]

end Machining.Double
