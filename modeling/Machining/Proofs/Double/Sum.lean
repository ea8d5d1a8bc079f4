import Machining.Proofs.Double.Rounding
import Machining.Proofs.Double.Unsigned

/-!
# When a sum of doubles exceeds its first term

A double that is added to another one can be too small to change it.  From `t` upwards the next
double is one spacing away, so `t + s` is above `t` exactly if `s` is more than half the spacing
of `t`, or just half of it and the significand of `t` is odd; otherwise the sum is `t` again.

* `Advances` — this condition, over exact values;
* `lt_add_iff` — `t < t + s` holds exactly then, for all doubles without a minus sign;
* `advances_of_exact_lt` — terms less than `2 ^ 53` times as great as `s` are advanced by `s`;
* `advances_of_advances_add` — what adding `s` does not change, adding `s` once more does not.
-/

set_option autoImplicit false

namespace Machining.Double

open Float.Model
open Float.Model.UnpackedFloat (Sign decreaseExponent)

/-- The number that a finite double is; zero for any other. -/
def exact (x : Float) : ℚ :=
  match reading x with
  | .finite s m e _ => s.apply m * 2 ^ e
  | _ => 0

/-- The distance from a double to its neighbours. -/
def spacing (x : Float) : ℚ :=
  match reading x with
  | .finite _ _ e _ => 2 ^ e
  | _ => 2 ^ (-1074 : ℤ)

/-- A double with an odd significand. -/
def isOdd (x : Float) : Bool :=
  match reading x with
  | .finite _ m _ _ => m % 2 == 1
  | _ => false

/-- Adding `s` moves the double `t` upwards: `t` is finite and `s` is infinite, more than half the
spacing of `t`, or half of it where rounding to the even significand goes upwards. -/
def Advances (t s : Float) : Prop :=
  t.isFinite = true ∧ (s.isInf = true ∧ 0 < s ∨
    s.isFinite = true ∧ (spacing t < 2 * exact s ∨ spacing t = 2 * exact s ∧ isOdd t = true))

instance (t s : Float) : Decidable (Advances t s) :=
  inferInstanceAs (Decidable (t.isFinite = true ∧ (s.isInf = true ∧ 0 < s ∨
    s.isFinite = true ∧ (spacing t < 2 * exact s ∨ spacing t = 2 * exact s ∧ isOdd t = true))))

theorem reading_add (t s : Float) :
    reading (t + s) = stored (UnpackedFloat.add Format.binary64 (reading t) (reading s)) := by
  rfl

/-! ## The sum of two finite doubles -/

theorem add_finite {m n : ℕ} {e f : ℤ} (hm : 0 < m) (hn : 0 < n) :
    UnpackedFloat.add Format.binary64 (.finite .positive m e hm) (.finite .positive n f hn) =
      UnpackedFloat.round Format.binary64 .positive
        (m * 2 ^ (e - f).toNat + n * 2 ^ (f - e).toNat) (e - (e - f).toNat) := by
  have hmin : min e f = e - (e - f).toNat := by omega
  have he : (e - min e f).toNat = (e - f).toNat := by omega
  have hf : (f - min e f).toNat = (f - e).toNat := by omega
  have hpos : 0 < m * 2 ^ (e - f).toNat + n * 2 ^ (f - e).toNat :=
    Nat.add_pos_left (Nat.mul_pos hm (Nat.two_pow_pos _)) _
  unfold UnpackedFloat.add decreaseExponent UnpackedFloat.normalize
  simp only [he, hf, Nat.shiftLeft_eq, Sign.apply]
  rw [← Nat.cast_add, hmin]
  have hcompare : compare ((m * 2 ^ (e - f).toNat + n * 2 ^ (f - e).toNat : ℕ) : ℤ) 0 = .gt :=
    Int.compare_eq_gt.2 (by exact_mod_cast hpos)
  rw [hcompare]
  simp only [Int.toNat_natCast]

/-- `n` units of which `2 ^ d` make one of the significand `m` round it up. -/
def Gains (m n d : ℕ) : Prop := 2 ^ d < 2 * n ∨ 2 ^ d = 2 * n ∧ m % 2 = 1

theorem nearest_add {m n d : ℕ} (hlt : n < 2 ^ d) :
    (Gains m n d ∧ nearest (m * 2 ^ d + n) d = m + 1) ∨
      (¬Gains m n d ∧ nearest (m * 2 ^ d + n) d = m) := by
  have hdiv : (m * 2 ^ d + n) / 2 ^ d = m := by
    rw [Nat.mul_comm, Nat.mul_add_div (Nat.two_pow_pos d), Nat.div_eq_of_lt hlt, Nat.add_zero]
  have hmod : (m * 2 ^ d + n) % 2 ^ d = n := by
    rw [Nat.mul_comm, Nat.mul_add_mod, Nat.mod_eq_of_lt hlt]
  unfold nearest Gains
  rw [hdiv, hmod]
  split
  · rename_i h
    exact Or.inl ⟨h, rfl⟩
  · rename_i h
    exact Or.inr ⟨h, rfl⟩

/-- Adding whole units to a canonical pair leaves at least the bits below the pair to cut off. -/
theorem le_excess_add {m d : ℕ} {e : ℤ} (hc : Canonical m e) (hd : -1074 ≤ e - d) (n : ℕ) :
    d ≤ excess (m * 2 ^ d + n) := by
  rcases Nat.eq_zero_or_pos d with rfl | hdpos
  · exact Nat.zero_le _
  have hnormal : 2 ^ 52 ≤ m := hc.normal.resolve_right (by omega)
  have hpow : 2 ^ (52 + d) ≤ m * 2 ^ d + n := by
    rw [Nat.pow_add]
    exact (Nat.mul_le_mul_right _ hnormal).trans (Nat.le_add_right _ _)
  have hlog := (Nat.le_log2 (Nat.pos_of_ne_zero fun h => by simp [h] at hpow).ne').2 hpow
  unfold excess
  omega

theorem excess_add {m n d : ℕ} {e : ℤ} (hc : Canonical m e) (hd : -1074 ≤ e - d)
    (hlt : n < 2 ^ d) : excess (m * 2 ^ d + n) = d := by
  refine le_antisymm ?_ (le_excess_add hc hd n)
  have hpos : 0 < m * 2 ^ d + n := Nat.add_pos_left (Nat.mul_pos hc.pos (Nat.two_pow_pos d)) n
  have hpow : m * 2 ^ d + n < 2 ^ (53 + d) := by
    calc m * 2 ^ d + n < m * 2 ^ d + 2 ^ d := Nat.add_lt_add_left hlt _
      _ = (m + 1) * 2 ^ d := (Nat.succ_mul m _).symm
      _ ≤ 2 ^ 53 * 2 ^ d := Nat.mul_le_mul_right _ hc.lt
      _ = 2 ^ (53 + d) := (Nat.pow_add 2 53 d).symm
  have hlog := (Nat.log2_lt hpos.ne').2 hpow
  unfold excess
  omega

/-- The sum of a canonical pair and `n` smaller units: above the pair, or the pair again. -/
theorem round_sum {m n d : ℕ} {e : ℤ} (hc : Canonical m e) (hd : -1074 ≤ e - d) (hn : 0 < n) :
    ∃ (m' : ℕ) (e' : ℤ) (hc' : Canonical m' e'),
      UnpackedFloat.round Format.binary64 .positive (m * 2 ^ d + n) (e - d) =
        .finite .positive m' e' hc'.pos ∧
      (Gains m n d ∧ (e < e' ∨ e = e' ∧ m < m') ∨ ¬Gains m n d ∧ m' = m ∧ e' = e) := by
  have hle := le_excess_add hc hd n
  have hroundable : Roundable (m * 2 ^ d + n) (e - d) := by
    refine ⟨Nat.add_pos_right _ hn, hd, ?_⟩
    have hbig : m ≤ m * 2 ^ d + n :=
      (Nat.le_mul_of_pos_right m (Nat.two_pow_pos d)).trans (Nat.le_add_right _ _)
    have := hc.normal
    omega
  have hlt := hc.lt
  obtain ⟨m', e', hc', hround, hshape⟩ := round_shape hroundable .positive
  refine ⟨m', e', hc', hround, ?_⟩
  -- fewer than `2 ^ d` units are rounded away or up; from there on they add to the significand
  rcases Nat.lt_or_ge n (2 ^ d) with hsmall | hlarge
  · have hexcess := excess_add hc hd hsmall
    rw [rounded, hexcess] at hshape
    rcases nearest_add (m := m) hsmall with ⟨hgains, hnext⟩ | ⟨hgains, hsame⟩
    · exact Or.inl ⟨hgains, by omega⟩
    · exact Or.inr ⟨hgains, by omega, by omega⟩
  · have hgains : Gains m n d := Or.inl (by omega)
    have hquotient : m + 1 ≤ (m * 2 ^ d + n) / 2 ^ d := by
      rw [Nat.le_div_iff_mul_le (Nat.two_pow_pos d), Nat.succ_mul]
      exact Nat.add_le_add_left hlarge _
    refine Or.inl ⟨hgains, ?_⟩
    rcases hle.eq_or_lt with heq | hmore
    · have hrounded := hquotient.trans (le_nearest _ _)
      rw [rounded, ← heq] at hshape
      omega
    · omega

/-- The same condition over the exact values. -/
theorem gains_iff (m n : ℕ) (e f : ℤ) :
    Gains m (n * 2 ^ (f - e).toNat) (e - f).toNat ↔
      (2 : ℚ) ^ e < 2 * (n * 2 ^ f) ∨ (2 : ℚ) ^ e = 2 * (n * 2 ^ f) ∧ m % 2 = 1 := by
  have hunit : (0 : ℚ) < 2 ^ (min e f) := by positivity
  have hsplit : ∀ g : ℤ, min e f ≤ g →
      (2 : ℚ) ^ g = ((2 ^ (g - min e f).toNat : ℕ) : ℚ) * 2 ^ min e f := by
    intro g hg
    rw [Nat.cast_pow, Nat.cast_ofNat, ← zpow_natCast, ← zpow_add₀ (by norm_num)]
    congr 1
    omega
  have he : (2 : ℚ) ^ e = ((2 ^ (e - f).toNat : ℕ) : ℚ) * 2 ^ min e f := by
    have hexp : (e - min e f).toNat = (e - f).toNat := by omega
    rw [hsplit e (min_le_left e f), hexp]
  have hf : 2 * ((n : ℚ) * 2 ^ f) =
      ((2 * (n * 2 ^ (f - e).toNat) : ℕ) : ℚ) * 2 ^ min e f := by
    have hexp : (f - min e f).toNat = (f - e).toNat := by omega
    rw [hsplit f (min_le_right e f), hexp]
    push_cast
    ring
  unfold Gains
  rw [he, hf, mul_lt_mul_iff_left₀ hunit, mul_left_inj' hunit.ne', Nat.cast_lt, Nat.cast_inj]

/-! ## The sum of doubles without a minus sign -/

section Sum

variable {t s : Float} {u v w : UnpackedFloat}

/-- No canonical pair is below the least double. -/
theorem Canonical.least_le {n : ℕ} {f : ℤ} (h : Canonical n f) :
    (2 : ℚ) ^ (-1074 : ℤ) ≤ n * 2 ^ f := by
  have hn : (1 : ℚ) ≤ n := by exact_mod_cast h.pos
  calc (2 : ℚ) ^ (-1074 : ℤ) ≤ 2 ^ f := zpow_le_zpow_right₀ (by norm_num) h.least
    _ = 1 * 2 ^ f := (one_mul _).symm
    _ ≤ n * 2 ^ f := mul_le_mul_of_nonneg_right hn (by positivity)

theorem isFinite_eq (x : Float) : x.isFinite = (reading x).isFinite := by
  rfl

theorem isInf_eq (x : Float) : x.isInf = (reading x).isInf := by
  rfl

theorem reading_add_eq (ht : reading t = u) (hs : reading s = v)
    (hadd : UnpackedFloat.add Format.binary64 u v = w) (hw : Unsigned w) :
    reading (t + s) = w := by
  rw [reading_add, ht, hs, hadd, stored_of_unsigned hw]

theorem spacing_pos (x : Float) : 0 < spacing x := by
  unfold spacing
  split <;> positivity

theorem not_advances_of_not_finite (h : (reading t).isFinite = false) : ¬Advances t s := by
  rintro ⟨hfinite, _⟩
  rw [isFinite_eq, h] at hfinite
  cases hfinite

/-- Between finite doubles only the spacing counts. -/
theorem advances_iff_of_finite (ht : (reading t).isFinite = true)
    (hs : (reading s).isFinite = true) (hinf : (reading s).isInf = false) :
    Advances t s ↔ spacing t < 2 * exact s ∨ spacing t = 2 * exact s ∧ isOdd t = true := by
  unfold Advances
  rw [isFinite_eq, isFinite_eq, isInf_eq, ht, hs, hinf]
  simp

/-- What a sum is: beyond the first term where it advances, else that term or undefined. -/
def SumSpec (t s : Float) : Prop :=
  (Advances t s ∧ t < t + s ∧ Unsigned (reading (t + s))) ∨
    (¬Advances t s ∧ (reading (t + s) = reading t ∨ reading (t + s) = .notANumber))

theorem sumSpec_undefined_left (ht : reading t = .notANumber) : SumSpec t s :=
  Or.inr ⟨not_advances_of_not_finite (by rw [ht]; rfl),
    Or.inr (reading_add_eq ht rfl rfl .undefined)⟩

theorem sumSpec_undefined_right (hs : reading s = .notANumber) : SumSpec t s := by
  have hadd : UnpackedFloat.add Format.binary64 (reading t) .notANumber = .notANumber := by
    cases reading t <;> rfl
  refine Or.inr ⟨?_, Or.inr (reading_add_eq rfl hs hadd .undefined)⟩
  rintro ⟨_, ⟨hinf, _⟩ | ⟨hfinite, _⟩⟩
  · rw [isInf_eq, hs] at hinf
    cases hinf
  · rw [isFinite_eq, hs] at hfinite
    cases hfinite

theorem sumSpec_infinity_left (ht : reading t = .infinity .positive)
    (hs : Unsigned (reading s)) : SumSpec t s := by
  refine Or.inr ⟨not_advances_of_not_finite (by rw [ht]; rfl), ?_⟩
  rw [ht]
  generalize hv : reading s = v at hs
  cases hs with
  | undefined => exact Or.inr (reading_add_eq ht hv rfl .undefined)
  | zero => exact Or.inl (reading_add_eq ht hv rfl .infinity)
  | finite => exact Or.inl (reading_add_eq ht hv rfl .infinity)
  | infinity => exact Or.inl (reading_add_eq ht hv rfl .infinity)

theorem sumSpec_infinity_right (ht : Unsigned (reading t))
    (hfinite : (reading t).isFinite = true) (hs : reading s = .infinity .positive) :
    SumSpec t s := by
  have hpos : 0 < s := by
    rw [lt_iff, reading_zero, hs]
    rfl
  have hadvances : Advances t s := by
    refine ⟨hfinite, Or.inl ⟨?_, hpos⟩⟩
    rw [isInf_eq, hs]
    rfl
  have hsum : reading (t + s) = .infinity .positive ∧ t < t + s := by
    rcases ht.zero_or_finite hfinite with hu | ⟨m, e, hc, _, hu⟩
    · have hadd := reading_add_eq hu hs rfl .infinity
      rw [lt_iff, hadd, hu]
      exact ⟨rfl, rfl⟩
    · have hadd := reading_add_eq hu hs rfl .infinity
      rw [lt_iff, hadd, hu]
      exact ⟨rfl, rfl⟩
  refine Or.inl ⟨hadvances, hsum.2, ?_⟩
  rw [hsum.1]
  exact .infinity

theorem sumSpec_zero_right (ht : Unsigned (reading t)) (hfinite : (reading t).isFinite = true)
    (hs : reading s = .zero .positive) : SumSpec t s := by
  have hzero : exact s = 0 := by
    unfold exact
    rw [hs]
  have hadd : UnpackedFloat.add Format.binary64 (reading t) (.zero .positive) = reading t := by
    rcases ht.zero_or_finite hfinite with hu | ⟨m, e, hc, _, hu⟩
    · rw [hu]
      rfl
    · rw [hu]
      rfl
  refine Or.inr ⟨?_, Or.inl (reading_add_eq rfl hs hadd ht)⟩
  rw [advances_iff_of_finite hfinite (by rw [hs]; rfl) (by rw [hs]; rfl), hzero]
  have := spacing_pos t
  rintro (h | ⟨h, _⟩)
  · linarith
  · linarith

theorem sumSpec_zero_finite {n : ℕ} {f : ℤ} (ht : reading t = .zero .positive)
    (hc : Canonical n f) (hle : f ≤ 971) (hs : reading s = .finite .positive n f hc.pos) :
    SumSpec t s := by
  have hsum : reading (t + s) = .finite .positive n f hc.pos :=
    reading_add_eq ht hs rfl (.finite hc hle)
  refine Or.inl ⟨?_, ?_, ?_⟩
  · rw [advances_iff_of_finite (by rw [ht]; rfl) (by rw [hs]; rfl) (by rw [hs]; rfl)]
    left
    have hleast := hc.least_le
    have hpos : (0 : ℚ) < 2 ^ (-1074 : ℤ) := by positivity
    unfold spacing exact
    simp only [ht, hs, Sign.apply, Int.cast_natCast]
    linarith
  · rw [lt_iff, ht, hsum]
    rfl
  · rw [hsum]
    exact .finite hc hle

/-- The order of canonical pairs is that of their exponents, then of their significands. -/
theorem compare_finite {m m' : ℕ} {e e' : ℤ} (hm : 0 < m) (hm' : 0 < m')
    (h : e < e' ∨ e = e' ∧ m < m') :
    (UnpackedFloat.finite .positive m e hm).compare (.finite .positive m' e' hm') =
      some .lt := by
  unfold UnpackedFloat.compare
  rcases h with hlt | ⟨rfl, hlt⟩
  · rw [Int.compare_eq_lt.2 hlt]
    rfl
  · rw [Int.compare_eq_eq.2 rfl, Nat.compare_eq_lt.2 hlt]
    rfl

theorem sumSpec_finite_finite {m n : ℕ} {e f : ℤ} (hm : Canonical m e) (hme : e ≤ 971)
    (ht : reading t = .finite .positive m e hm.pos) (hn : Canonical n f)
    (hs : reading s = .finite .positive n f hn.pos) : SumSpec t s := by
  have hiff : Advances t s ↔ Gains m (n * 2 ^ (f - e).toNat) (e - f).toNat := by
    rw [advances_iff_of_finite (by rw [ht]; rfl) (by rw [hs]; rfl) (by rw [hs]; rfl), gains_iff]
    unfold spacing exact isOdd
    simp only [ht, hs, Sign.apply, Int.cast_natCast, beq_iff_eq]
  have hleast : -1074 ≤ e - ((e - f).toNat : ℤ) := by
    have := hm.least
    have := hn.least
    omega
  obtain ⟨m', e', hc', hround, hshape⟩ :=
    round_sum (d := (e - f).toNat) hm hleast (Nat.mul_pos hn.pos (Nat.two_pow_pos (f - e).toNat))
  have hsum : reading (t + s) = stored (.finite .positive m' e' hc'.pos) := by
    rw [reading_add, ht, hs, add_finite, hround]
  rcases hshape with ⟨hgains, habove⟩ | ⟨hgains, rfl, rfl⟩
  · refine Or.inl ⟨hiff.2 hgains, ?_⟩
    rw [lt_iff, ht, hsum]
    by_cases hle : e' ≤ 971
    · rw [stored_of_unsigned (.finite hc' hle)]
      exact ⟨compare_finite _ _ habove, .finite hc' hle⟩
    · have hover : stored (.finite .positive m' e' hc'.pos) = .infinity .positive :=
        stored_overflow _ _ (by omega)
      rw [hover]
      exact ⟨rfl, .infinity⟩
  · refine Or.inr ⟨fun h => hgains (hiff.1 h), Or.inl ?_⟩
    rw [hsum, stored_of_unsigned (.finite hc' hme), ht]

/-- **The sum of doubles without a minus sign** is beyond the first term exactly where the second
advances it. -/
theorem sumSpec (ht : Unsigned (reading t)) (hs : Unsigned (reading s)) : SumSpec t s := by
  have ht' := ht
  have hs' := hs
  generalize hu : reading t = u at ht'
  generalize hv : reading s = v at hs'
  cases ht' with
  | undefined => exact sumSpec_undefined_left hu
  | infinity => exact sumSpec_infinity_left hu hs
  | zero =>
    cases hs' with
    | undefined => exact sumSpec_undefined_right hv
    | zero => exact sumSpec_zero_right ht (by rw [hu]; rfl) hv
    | finite hn hle => exact sumSpec_zero_finite hu hn hle hv
    | infinity => exact sumSpec_infinity_right ht (by rw [hu]; rfl) hv
  | finite hm hle =>
    cases hs' with
    | undefined => exact sumSpec_undefined_right hv
    | zero => exact sumSpec_zero_right ht (by rw [hu]; rfl) hv
    | finite hn _ => exact sumSpec_finite_finite hm hle hu hn hv
    | infinity => exact sumSpec_infinity_right ht (by rw [hu]; rfl) hv

theorem unsigned_add (ht : Unsigned (reading t)) (hs : Unsigned (reading s)) :
    Unsigned (reading (t + s)) := by
  rcases sumSpec ht hs with ⟨_, _, hsum⟩ | ⟨_, hsame | hundefined⟩
  · exact hsum
  · rw [hsame]
    exact ht
  · rw [hundefined]
    exact .undefined

/-- No double is below another one with the same reading. -/
theorem not_lt_of_reading_eq (h : reading s = reading t) (ht : Unsigned (reading t)) : ¬t < s := by
  rw [lt_iff, h]
  generalize reading t = u at ht
  cases ht with
  | undefined => exact nofun
  | zero => exact nofun
  | finite hc _ =>
    simp only [UnpackedFloat.compare, Int.compare_eq_eq.2 rfl, Nat.compare_eq_eq.2 rfl]
    exact nofun
  | infinity => exact nofun

/-- **A sum exceeds its first term exactly if the second advances it.** -/
theorem lt_add_iff (ht : Unsigned (reading t)) (hs : Unsigned (reading s)) :
    t < t + s ↔ Advances t s := by
  rcases sumSpec ht hs with ⟨hadvances, hlt, _⟩ | ⟨hadvances, hsum⟩
  · exact ⟨fun _ => hadvances, fun _ => hlt⟩
  · refine ⟨fun hlt => absurd hlt ?_, fun h => absurd h hadvances⟩
    rcases hsum with hsame | hundefined
    · exact not_lt_of_reading_eq hsame ht
    · rw [lt_iff, hundefined]
      cases reading t <;> exact nofun

/-- The spacing of a double is the least one, or leaves room for 52 bits below the double. -/
theorem spacing_le (ht : Unsigned (reading t)) (hfinite : t.isFinite = true) :
    0 ≤ exact t ∧ (spacing t = 2 ^ (-1074 : ℤ) ∨ 2 ^ 52 * spacing t ≤ exact t) := by
  unfold spacing exact
  rcases ht.zero_or_finite hfinite with hu | ⟨m, e, hc, _, hu⟩
  · rw [hu]
    exact ⟨le_rfl, Or.inl rfl⟩
  · rw [hu]
    simp only [Sign.apply, Int.cast_natCast]
    refine ⟨by positivity, ?_⟩
    rcases hc.normal with hnormal | rfl
    · right
      have hm : (2 : ℚ) ^ 52 ≤ m := by exact_mod_cast hnormal
      exact mul_le_mul_of_nonneg_right hm (by positivity)
    · exact Or.inl rfl

/-- **A double is advanced by every other one** of which it holds less than `2 ^ 53`. -/
theorem advances_of_exact_lt (ht : Unsigned (reading t)) (hs : Unsigned (reading s))
    (htf : t.isFinite = true) (hsf : s.isFinite = true) (h : exact t < 2 ^ 53 * exact s) :
    Advances t s := by
  obtain ⟨hnonneg, hspacing⟩ := spacing_le ht htf
  have hleast : (2 : ℚ) ^ (-1074 : ℤ) ≤ exact s := by
    have hpos : 0 < exact s := by linarith
    unfold exact at hpos ⊢
    rcases hs.zero_or_finite hsf with hv | ⟨n, f, hc, _, hv⟩
    · rw [hv] at hpos
      exact absurd hpos (lt_irrefl 0)
    · rw [hv]
      simpa only [Sign.apply, Int.cast_natCast] using hc.least_le
  refine ⟨htf, Or.inr ⟨hsf, Or.inl ?_⟩⟩
  have hpos : (0 : ℚ) < 2 ^ (-1074 : ℤ) := by positivity
  rcases hspacing with hspacing | hspacing
  · rw [hspacing]
    linarith
  · linarith

/-- Whether a double is advanced depends on its reading alone. -/
theorem advances_congr {t' : Float} (h : reading t = reading t') :
    Advances t s ↔ Advances t' s := by
  unfold Advances spacing isOdd
  rw [isFinite_eq t, isFinite_eq t', h]

/-- **A sum that does not move stands still**: if the second term advances the sum, it has advanced
the first term already. -/
theorem advances_of_advances_add (ht : Unsigned (reading t)) (hs : Unsigned (reading s))
    (h : Advances (t + s) s) : Advances t s := by
  rcases sumSpec ht hs with ⟨hadvances, _⟩ | ⟨_, hsame | hundefined⟩
  · exact hadvances
  · exact (advances_congr hsame).1 h
  · exact absurd h (not_advances_of_not_finite (by rw [hundefined]; rfl))

end Sum

end Machining.Double
