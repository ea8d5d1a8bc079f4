import Mathlib

/-!
# The layout of doubles

A finite double is a significand times a power of two.  The significand has at most 53 bits, and
fewer only at the least exponent; that makes the pair unique.

* `Canonical` — the pairs of significand and exponent that a double keeps;
* `canonical_of_unpack` — reading a bit pattern gives such a pair;
* `stored_finite`, `stored_overflow` — storing a pair keeps it, unless its exponent is
  beyond the format and the double becomes infinite.
-/

set_option autoImplicit false

namespace Machining.Double

open Float.Model
open Float.Model.UnpackedFloat (Sign unpackSign unpackExponent unpackMantissa packComponents
  packedInfinity)

/-- A significand and an exponent as a double has them, apart from the greatest exponent. -/
structure Canonical (m : ℕ) (e : ℤ) : Prop where
  pos : 0 < m
  lt : m < 2 ^ 53
  least : -1074 ≤ e
  normal : 2 ^ 52 ≤ m ∨ e = -1074

theorem exponentBias_eq : Format.binary64.exponentBias = 1023 := rfl

/-! ## Reading -/

theorem toNat_one_append (v : BitVec 52) : (1#1 ++ v).toNat = 2 ^ 52 + v.toNat := by
  rw [BitVec.toNat_append, ← Nat.shiftLeft_add_eq_or_of_lt v.isLt, Nat.shiftLeft_eq]
  rfl

theorem toNat_lt_of_ne_neg_one {v : BitVec 11} (h : v ≠ -1#11) : v.toNat < 2047 := by
  have hne : v.toNat ≠ 2047 := fun hv => h (BitVec.eq_of_toNat_eq (by rw [hv]; rfl))
  have := v.isLt
  omega

/-- **A finite double is canonical**, and its exponent is at most 971. -/
theorem canonical_of_unpack {b : BitVec Format.binary64.numBits} {s : Sign} {m : ℕ} {e : ℤ}
    {hm : 0 < m} (h : UnpackedFloat.unpack Format.binary64 b = .finite s m e hm) :
    Canonical m e ∧ e ≤ 971 := by
  unfold UnpackedFloat.unpack at h
  simp only [exponentBias_eq] at h
  split at h
  · split at h <;> cases h
  rename_i htop
  have hexp := toNat_lt_of_ne_neg_one htop
  split at h
  · rename_i hzero
    split at h
    · cases h
    -- a subnormal number
    injection h with _ hm' he
    have hlt := (@unpackMantissa Format.binary64 b).isLt
    simp only [hzero, BitVec.toNat_zero] at he
    refine ⟨⟨hm, ?_, ?_, Or.inr ?_⟩, ?_⟩ <;> omega
  · rename_i hzero
    injection h with _ hm' he
    have hpos : 0 < (@unpackExponent Format.binary64 b).toNat :=
      Nat.pos_of_ne_zero fun h0 => hzero (BitVec.eq_of_toNat_eq h0)
    have hlt := (@unpackMantissa Format.binary64 b).isLt
    rw [toNat_one_append] at hm'
    refine ⟨⟨hm, ?_, ?_, Or.inl ?_⟩, ?_⟩ <;> omega

/-! ## Storing -/

theorem unpackSign_packComponents (s : Sign) (e : BitVec 11) (m : BitVec 52) :
    unpackSign (packComponents Format.binary64 s e m) = s.toBitVec := by
  simp only [unpackSign, packComponents, BitVec.extractLsb]
  ext i hi
  grind

theorem ofBitVec_toBitVec (s : Sign) : Sign.ofBitVec s.toBitVec = s := by
  cases s <;> rfl

/-- What a result becomes when it is stored in a double. -/
def stored (u : UnpackedFloat) : UnpackedFloat :=
  UnpackedFloat.unpack Format.binary64 (UnpackedFloat.pack Format.binary64 u)

theorem stored_undefined : stored .notANumber = .notANumber := by
  rfl

theorem stored_infinity (s : Sign) : stored (.infinity s) = .infinity s := by
  cases s <;> rfl

theorem stored_zero (s : Sign) : stored (.zero s) = .zero s := by
  cases s <;> rfl

/-- A pair whose exponent is beyond the format is packed as infinity. -/
theorem pack_overflow {m : ℕ} {e : ℤ} (s : Sign) (hm : 0 < m) (he : 971 < e) :
    UnpackedFloat.pack Format.binary64 (.finite s m e hm) =
      packedInfinity Format.binary64 s := by
  unfold UnpackedFloat.pack
  simp only [exponentBias_eq]
  exact if_pos (by omega)

/-- Such a pair is stored as an infinite double. -/
theorem stored_overflow {m : ℕ} {e : ℤ} (s : Sign) (hm : 0 < m) (he : 971 < e) :
    stored (.finite s m e hm) = .infinity s := by
  unfold stored
  rw [pack_overflow s hm he]
  exact stored_infinity s

/-- The exponent field of a normal number. -/
theorem exponentField {x : ℕ} (hpos : 0 < x) (hlt : x < 2047) :
    (BitVec.ofNat 11 x).toNat = x ∧ BitVec.ofNat 11 x ≠ 0#11 ∧ BitVec.ofNat 11 x ≠ -1#11 := by
  have hx : (BitVec.ofNat 11 x).toNat = x := by
    rw [BitVec.toNat_ofNat, Nat.mod_eq_of_lt (by omega)]
  refine ⟨hx, ?_, ?_⟩
  · intro h
    rw [h, BitVec.toNat_zero] at hx
    omega
  · intro h
    have htop : (-1#11).toNat = 2047 := rfl
    rw [h] at hx
    omega

/-- Reading the components of a normal number. -/
theorem unpack_normal (s : Sign) {x : BitVec 11} (v : BitVec 52) (h0 : x ≠ 0#11)
    (htop : x ≠ -1#11) : UnpackedFloat.unpack Format.binary64
      (packComponents Format.binary64 s x v) =
        .finite s (2 ^ 52 + v.toNat) (x.toNat - 1075) (Nat.add_pos_left (by decide) _) := by
  unfold UnpackedFloat.unpack
  simp only [UnpackedFloat.unpackMantissa_packComponents,
    UnpackedFloat.unpackExponent_packComponents, unpackSign_packComponents, ofBitVec_toBitVec,
    exponentBias_eq]
  rw [if_neg htop, if_neg h0]
  simp only [UnpackedFloat.finite.injEq, toNat_one_append, true_and]
  omega

/-- Reading the components of a subnormal number. -/
theorem unpack_subnormal (s : Sign) {v : BitVec 52} (h : 0 < v.toNat) :
    UnpackedFloat.unpack Format.binary64 (packComponents Format.binary64 s 0#11 v) =
      .finite s v.toNat (-1074) h := by
  have hne : v ≠ 0#52 := by
    rintro rfl
    exact absurd h (by decide)
  unfold UnpackedFloat.unpack
  simp only [UnpackedFloat.unpackMantissa_packComponents,
    UnpackedFloat.unpackExponent_packComponents, unpackSign_packComponents, ofBitVec_toBitVec,
    exponentBias_eq]
  rw [if_neg (by decide), if_pos trivial, dif_neg hne]
  rfl

/-- **A canonical pair within the format is stored without loss.** -/
theorem stored_finite {m : ℕ} {e : ℤ} (s : Sign) (hc : Canonical m e) (he : e ≤ 971) :
    stored (.finite s m e hc.pos) = .finite s m e hc.pos := by
  obtain ⟨hm, hlt, hle, hnormal⟩ := hc
  have hbits : Format.binary64.mantissaBits = 53 := rfl
  have hlog : m.log2 + 1 = 53 ↔ 2 ^ 52 ≤ m := by
    have h1 := Nat.log2_lt hm.ne' (k := 53)
    have h2 := Nat.le_log2 hm.ne' (k := 52)
    omega
  unfold stored UnpackedFloat.pack
  simp only [exponentBias_eq, hbits]
  generalize hx : (e + (1023 : ℕ) + (52 : ℕ)).toNat = x
  rw [if_neg (by omega)]
  split
  · rename_i hfull
    have hbig := hlog.1 hfull
    have hmod : (BitVec.ofNat 52 m).toNat = m - 2 ^ 52 := by
      rw [BitVec.toNat_ofNat, Nat.mod_eq_sub_mod hbig, Nat.mod_eq_of_lt (by omega)]
    obtain ⟨hexp, h0, htop⟩ := exponentField (x := x) (by omega) (by omega)
    rw [unpack_normal s _ h0 htop]
    simp only [UnpackedFloat.finite.injEq, true_and, hmod, hexp]
    omega
  · rename_i hfull
    have hsmall : m < 2 ^ 52 := by
      by_contra h
      exact hfull (hlog.2 (by omega))
    have hmod : (BitVec.ofNat 52 m).toNat = m := by
      rw [BitVec.toNat_ofNat, Nat.mod_eq_of_lt hsmall]
    rw [unpack_subnormal s (by rw [hmod]; exact hm)]
    simp only [UnpackedFloat.finite.injEq, true_and, hmod]
    omega

end Machining.Double
