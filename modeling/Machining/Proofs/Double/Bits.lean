import Machining.Decimal.Nearest
import Machining.Proofs.Double.Sum

/-!
# The bits of doubles

A double is known from its bits: sign, exponent field and mantissa field.  Without the sign the
bits of a finite double are a number below those of infinity.

* `pack_unpack` — reading a valid bit pattern and storing what was read gives the pattern back;
* `ofBits_toBits` — so a double is the one of its bits;
* `isFinite_iff_bits` — the bits of finite doubles;
* `ofSignedBits_toBits` — a double from its sign and its magnitude.
-/

set_option autoImplicit false

namespace Machining.Double

open Float.Model
open Float.Model.UnpackedFloat (Sign unpackSign unpackExponent unpackMantissa packComponents)

/-! ## Fields -/

theorem toBitVec_ofBitVec (s : BitVec 1) : (Sign.ofBitVec s).toBitVec = s := by
  revert s; decide

/-- A bit pattern is made of its three fields. -/
theorem packComponents_fields (b : BitVec Format.binary64.numBits) :
    packComponents Format.binary64 (Sign.ofBitVec (unpackSign b)) (unpackExponent b)
      (unpackMantissa b) = b := by
  simp only [packComponents, toBitVec_ofBitVec, unpackSign, unpackExponent, unpackMantissa,
    BitVec.extractLsb]
  ext i hi
  grind

theorem eq_packComponents {b : BitVec Format.binary64.numBits} {x : BitVec 11} {v : BitVec 52}
    (hx : unpackExponent b = x) (hv : unpackMantissa b = v) :
    packComponents Format.binary64 (Sign.ofBitVec (unpackSign b)) x v = b := by
  rw [← hx, ← hv, packComponents_fields]

theorem log2_eq_iff {m : ℕ} (hm : 0 < m) : m.log2 + 1 = 53 ↔ 2 ^ 52 ≤ m ∧ m < 2 ^ 53 := by
  have h1 := Nat.log2_lt hm.ne' (k := 53)
  have h2 := Nat.le_log2 hm.ne' (k := 52)
  omega

/-- **A valid bit pattern survives being read and stored.** -/
theorem pack_unpack {b : BitVec Format.binary64.numBits} (hb : Format.binary64.Valid b) :
    UnpackedFloat.pack Format.binary64 (UnpackedFloat.unpack Format.binary64 b) = b := by
  have hbits : Format.binary64.mantissaBits = 53 := rfl
  have hlt : (@unpackMantissa Format.binary64 b).toNat < 2 ^ 52 := (unpackMantissa b).isLt
  unfold UnpackedFloat.unpack
  simp only [exponentBias_eq]
  split
  · rename_i htop
    split
    · rename_i hv
      exact eq_packComponents htop hv
    · rename_i hv
      exact (hb.eq_packedNaN htop hv).symm
  rename_i htop
  split
  · rename_i hzero
    split
    · rename_i hv
      exact eq_packComponents hzero hv
    · rename_i hv
      -- a subnormal number: its mantissa is too small for the implicit bit
      have hpos : 0 < (@unpackMantissa Format.binary64 b).toNat :=
        Nat.pos_of_ne_zero fun h => hv (BitVec.eq_of_toNat_eq h)
      have hfield : (@unpackExponent Format.binary64 b).toNat = 0 := by rw [hzero]; rfl
      unfold UnpackedFloat.pack
      simp only [exponentBias_eq, hbits, hfield, log2_eq_iff hpos]
      rw [if_neg (by decide), if_neg (by omega)]
      exact eq_packComponents hzero (BitVec.eq_of_toNat_eq (by simp))
  · rename_i hzero
    have hexp := toNat_lt_of_ne_neg_one htop
    have hpos : 0 < (@unpackExponent Format.binary64 b).toNat :=
      Nat.pos_of_ne_zero fun h => hzero (BitVec.eq_of_toNat_eq h)
    have hnum := toNat_one_append (@unpackMantissa Format.binary64 b)
    have hfull : (1#1 ++ @unpackMantissa Format.binary64 b).toNat.log2 + 1 = 53 :=
      (log2_eq_iff (by omega)).2 (by omega)
    unfold UnpackedFloat.pack
    simp only [exponentBias_eq, hbits]
    rw [if_neg (by omega), if_pos hfull]
    refine eq_packComponents (BitVec.eq_of_toNat_eq ?_) (BitVec.eq_of_toNat_eq ?_)
    · rw [BitVec.toNat_ofNat, Nat.mod_eq_of_lt (b := 2 ^ 11) (by omega)]
      omega
    · rw [BitVec.toNat_ofNat, hnum, Nat.add_mod_left, Nat.mod_eq_of_lt hlt]

/-! ## The double of a bit pattern -/

theorem pack_unpack_model (x : Float.Model) : Float.Model.pack x.unpack = x := by
  obtain ⟨bits, hvalid⟩ := x
  have hpack := pack_unpack hvalid
  simp only [Float.Model.pack, Float.Model.unpack, hpack]

/-- **A double is the one of its bits.** -/
theorem ofBits_toBits (x : Float) : Float.ofBits x.toBits = x := by
  change Float.ofModel (Float.Model.pack x.toModel.unpack) = x
  rw [pack_unpack_model]

theorem toNat_exponent (b : BitVec Format.binary64.numBits) :
    (unpackExponent b).toNat = b.toNat / 2 ^ 52 % 2 ^ 11 := by
  simp [unpackExponent, BitVec.extractLsb, Nat.shiftRight_eq_div_pow]

/-- The bits of finite doubles. -/
theorem isFinite_iff_bits (x : Float) :
    x.isFinite = true ↔ x.toBits.toNat % signBit < infinityBits := by
  have hbits : x.toBits.toNat = x.toBits.toBitVec.toNat := rfl
  rw [isFinite_eq]
  change (UnpackedFloat.unpack Format.binary64 x.toBits.toBitVec).isFinite = true ↔ _
  rw [hbits]
  generalize x.toBits.toBitVec = b
  have htop : @unpackExponent Format.binary64 b = -1#11 ↔ b.toNat / 2 ^ 52 % 2 ^ 11 = 2047 := by
    rw [← BitVec.toNat_inj, toNat_exponent]
    rfl
  unfold UnpackedFloat.unpack
  simp only [signBit, infinityBits, mantissaCount]
  split
  · rename_i h
    have := htop.1 h
    split <;> simp [UnpackedFloat.isFinite] <;> omega
  · rename_i h
    have := mt htop.2 h
    have hfinite : b.toNat % 0x8000000000000000 < 0x7FF * 0x10000000000000 := by omega
    split
    · split <;> simp [UnpackedFloat.isFinite, hfinite]
    · simp [UnpackedFloat.isFinite, hfinite]

/-- A sign and a magnitude make up a double. -/
theorem ofSignedBits_toBits (x : Float) :
    ofSignedBits (decide (signBit ≤ x.toBits.toNat)) (x.toBits.toNat % signBit) = x := by
  have hlt := x.toBits.toNat_lt
  have hbits : (if decide (signBit ≤ x.toBits.toNat) = true
      then signBit + x.toBits.toNat % signBit else x.toBits.toNat % signBit) = x.toBits.toNat := by
    by_cases h : signBit ≤ x.toBits.toNat
    · rw [if_pos (decide_eq_true h)]
      unfold signBit at *
      omega
    · rw [if_neg (by simp [h])]
      exact Nat.mod_eq_of_lt (Nat.lt_of_not_le h)
  rw [ofSignedBits, hbits, UInt64.ofNat_toNat, ofBits_toBits]

end Machining.Double
