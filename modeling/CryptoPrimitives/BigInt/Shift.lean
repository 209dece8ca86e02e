import CryptoPrimitives.BigInt.Basic
import CryptoPrimitives.Units.Shift

/-!
# Shifts of numbers

The magnitude is shifted and the sign kept, unless nothing is left.
-/

set_option autoImplicit false

namespace CryptoPrimitives.BigInt

variable [Supply]

def shiftLeft (x : BigInt) (k : Nat) : Booked BigInt := do
  if x.isZero then return empty x.alloc
  let (moved, out) := Units.shiftLeft x.units (k % Limb.bits)
  let r ← (empty x.alloc).write (Units.zeros (k / Limb.bits) ++ moved ++ [out])
  return r.withSign x.negative

def shiftRight (x : BigInt) (k : Nat) : Booked BigInt := do
  if x.size ≤ k / Limb.bits then return empty x.alloc
  let (moved, _) := Units.shiftRight (x.units.drop (k / Limb.bits)) (k % Limb.bits)
  let r ← (empty x.alloc).write moved
  return r.withSign x.negative

end CryptoPrimitives.BigInt
