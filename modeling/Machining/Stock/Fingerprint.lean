import Machining.Stock.Grid
import Machining.Text.Hexadecimal

/-!
# Fingerprints

A 32-bit hash of the occupancy in storage order: each cell is exclusive-or'd into the hash as one
or zero, and the hash is multiplied with a prime, modulo `2 ^ 32`.  It is written with eight
hexadecimal digits.
-/

set_option autoImplicit false

namespace Machining.Stock

/-- The hash of no cells. -/
def hashBasis : UInt32 := 2166136261

/-- The factor of one cell. -/
def hashPrime : UInt32 := 16777619

/-- Add one cell to a hash. -/
def hashCell (h : UInt32) (occupied : Bool) : UInt32 :=
  (h ^^^ (if occupied then 1 else 0)) * hashPrime

/-- The hash of a stock. -/
def hash {α : Type} (s : Stock α) : UInt32 := s.cells.toList.foldl hashCell hashBasis

/-- The hash as eight hexadecimal digits. -/
def fingerprint {α : Type} (s : Stock α) : String :=
  String.ofList (Hexadecimal.digits 8 s.hash.toNat)

end Machining.Stock
