import Machining.Proofs.Stock.Integrity
import Machining.Proofs.Text.Hexadecimal
import Machining.Stock.Fingerprint

/-!
# What a fingerprint tells

The hash takes in the bytes of the store one after the other.  Taking in one byte can be undone
when the byte is known, because the prime is odd, and it separates any two bytes.  So two stores
that differ in a single byte have different hashes: the difference arises at that byte and no byte
after it removes it again.  The eight digits then keep it.

* `Stock.absorb_left_injective`, `Stock.absorb_right_injective` — one byte;
* `Stock.foldl_absorb_ne` — bytes that differ in one place;
* `Stock.fingerprint_noticesCell` — the fingerprints of stocks that differ in one cell.
-/

set_option autoImplicit false

namespace Machining.Stock

/-! ## One byte -/

/-- Take one byte into a hash. -/
def absorb (h : UInt32) (b : UInt8) : UInt32 := (h ^^^ b.toUInt32) * hashPrime

/-- Multiplication with the prime can be undone, modulo `2 ^ 32`. -/
theorem mul_hashPrime_injective {a b : UInt32} (h : a * hashPrime = b * hashPrime) : a = b := by
  have hinverse : hashPrime * 0x359c449b = 1 := by decide
  calc a = a * hashPrime * 0x359c449b := by rw [UInt32.mul_assoc, hinverse, UInt32.mul_one]
    _ = b * hashPrime * 0x359c449b := by rw [h]
    _ = b := by rw [UInt32.mul_assoc, hinverse, UInt32.mul_one]

theorem absorb_left_injective {g h : UInt32} {b : UInt8} (heq : absorb g b = absorb h b) :
    g = h :=
  (UInt32.xor_left_inj _).1 (mul_hashPrime_injective heq)

theorem absorb_right_injective {h : UInt32} {a b : UInt8} (heq : absorb h a = absorb h b) :
    a = b :=
  UInt8.toUInt32_inj.1 ((UInt32.xor_right_inj _).1 (mul_hashPrime_injective heq))

/-! ## All bytes -/

/-- Bytes taken in after a difference do not remove it. -/
theorem foldl_absorb_injective {bs : List UInt8} {g h : UInt32}
    (heq : bs.foldl absorb g = bs.foldl absorb h) : g = h := by
  induction bs generalizing g h with
  | nil => exact heq
  | cons b bs ih => exact absorb_left_injective (ih heq)

/-- **Bytes that differ in one place** are told apart, whatever hash they are taken into. -/
theorem foldl_absorb_ne {as bs : List UInt8} (hlength : as.length = bs.length) {i : ℕ}
    (hne : as[i]? ≠ bs[i]?) (hrest : ∀ j, j ≠ i → as[j]? = bs[j]?) (h : UInt32) :
    as.foldl absorb h ≠ bs.foldl absorb h := by
  induction as generalizing bs i h with
  | nil =>
    obtain rfl := List.length_eq_zero_iff.1 hlength.symm
    exact absurd rfl hne
  | cons a as ih =>
    obtain ⟨b, bs, rfl⟩ := List.exists_cons_of_length_eq_add_one hlength.symm
    rw [List.foldl_cons, List.foldl_cons]
    cases i with
    | zero =>
      -- the bytes after the first one are the same
      have htail : as = bs := List.ext_getElem? fun j => hrest (j + 1) (Nat.succ_ne_zero j)
      intro heq
      rw [htail] at heq
      exact hne (congrArg some (absorb_right_injective (foldl_absorb_injective heq)))
    | succ i =>
      obtain rfl : a = b := Option.some.inj (hrest 0 (Nat.succ_ne_zero i).symm)
      refine ih (Nat.succ.inj hlength) hne (fun j hj => ?_) _
      exact hrest (j + 1) (fun hsucc => hj (Nat.succ.inj hsucc))

/-- The 32-bit hash of a list of bytes in whole numbers: each byte is exclusive-or'd into the hash,
which is then multiplied with the prime and cut to 32 bits. -/
def fnv1a (bs : List UInt8) : ℕ :=
  bs.foldl (fun h b => (h ^^^ b.toNat) * 16777619 % 2 ^ 32) 2166136261

theorem toNat_foldl_absorb (bs : List UInt8) (h : UInt32) : (bs.foldl absorb h).toNat =
    bs.foldl (fun h b => (h ^^^ b.toNat) * 16777619 % 2 ^ 32) h.toNat := by
  induction bs generalizing h with
  | nil => rfl
  | cons b bs ih =>
    have hstep : (absorb h b).toNat = (h.toNat ^^^ b.toNat) * 16777619 % 2 ^ 32 := by
      rw [absorb, UInt32.toNat_mul, UInt32.toNat_xor, UInt8.toNat_toUInt32]
      rfl
    rw [List.foldl_cons, List.foldl_cons, ih, hstep]

variable {α : Type} (s t : Stock α)

/-- The hash of a stock is that of the bytes of its store. -/
theorem hash_eq : s.hash = s.bytes.foldl absorb hashBasis := by
  have hcell (h : UInt32) (occupied : Bool) :
      hashCell h occupied = absorb h (if occupied then 1 else 0) := by
    cases occupied
    · rfl
    · rfl
  unfold hash bytes
  simp only [List.foldl_map, ← hcell]

theorem toNat_hash : s.hash.toNat = fnv1a s.bytes := by
  rw [hash_eq, toNat_foldl_absorb]
  rfl

/-! ## Fingerprints -/

variable {s t}

theorem toNat_hash_lt : s.hash.toNat < 16 ^ 8 := s.hash.toNat_lt

theorem hash_eq_of_fingerprint (h : s.fingerprint = t.fingerprint) : s.hash = t.hash :=
  UInt32.toNat_inj.1
    (Hexadecimal.digits_injective toNat_hash_lt toNat_hash_lt (String.ofList_injective h))

/-- **A fingerprint notices a single cell**: stocks with equally many cells whose stores differ in
one place have different fingerprints.  A fingerprint has eight hexadecimal digits in lower case,
which spell the hash of the bytes of the store. -/
theorem fingerprint_noticesCell (α : Type) :
    (∀ s t : Stock α, s.cellCount = t.cellCount → ∀ i : ℕ, s.bytes[i]? ≠ t.bytes[i]? →
      (∀ j, j ≠ i → s.bytes[j]? = t.bytes[j]?) → s.fingerprint ≠ t.fingerprint) ∧
    ∀ s : Stock α, s.fingerprint.length = 8 ∧
      (∀ c ∈ s.fingerprint.toList, c ∈ "0123456789abcdef".toList) ∧
      Hexadecimal.code? 8 0 s.fingerprint.toList = some (fnv1a s.bytes, []) := by
  constructor
  · intro s t hcount i hne hrest heq
    have hhash := hash_eq_of_fingerprint heq
    rw [hash_eq, hash_eq] at hhash
    refine foldl_absorb_ne ?_ hne hrest hashBasis hhash
    rw [length_bytes, length_bytes]
    exact hcount
  · intro s
    unfold fingerprint
    rw [String.length_ofList, String.toList_ofList, ← toNat_hash]
    exact ⟨Hexadecimal.length_digits _ _, fun c hc => Hexadecimal.mem_of_mem_digits hc,
      Hexadecimal.code?_digits toNat_hash_lt⟩

/-- Four cells in a row. -/
def rowOfFour : Stock Float := full ⟨⟨4, 1, 1, 1⟩, 4, 1, 1⟩

/-- Four cells in a square, without the second one. -/
def squareOfThree : Stock Float := (full ⟨⟨2, 2, 1, 1⟩, 2, 2, 1⟩).clear [⟨1, 0, 0⟩]

theorem fingerprint_noticesCell_rowAndSquare :
    rowOfFour.cellCount = squareOfThree.cellCount ∧
    rowOfFour.bytes[1]? ≠ squareOfThree.bytes[1]? ∧
    (∀ j, j ≠ 1 → rowOfFour.bytes[j]? = squareOfThree.bytes[j]?) ∧
    rowOfFour.fingerprint ≠ squareOfThree.fingerprint := by
  have hcount : rowOfFour.cellCount = squareOfThree.cellCount := by decide +kernel
  have hrow : rowOfFour.bytes = [1, 1, 1, 1] := by decide +kernel
  have hsquare : squareOfThree.bytes = [1, 0, 1, 1] := by decide +kernel
  have hne : rowOfFour.bytes[1]? ≠ squareOfThree.bytes[1]? := by
    rw [hrow, hsquare]
    decide
  have hrest (j : ℕ) (hj : j ≠ 1) : rowOfFour.bytes[j]? = squareOfThree.bytes[j]? := by
    rw [hrow, hsquare]
    match j with
    | 0 => rfl
    | 1 => exact absurd rfl hj
    | j + 2 => rfl
  exact ⟨hcount, hne, hrest,
    (fingerprint_noticesCell Float).1 rowOfFour squareOfThree hcount 1 hne hrest⟩

end Machining.Stock
