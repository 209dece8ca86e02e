import CryptoPrimitives.BigInt.Arithmetic
import CryptoPrimitives.Units.Division

/-!
# Division of numbers

The quotient is truncated toward zero, so a non-zero remainder has the sign of the dividend.
-/

set_option autoImplicit false

namespace CryptoPrimitives.BigInt

variable [Rendition] [Supply]

def divMod (s t : BigInt) : Attempt (BigInt × BigInt) := do
  if t.isZero then throw .divisionByZero
  let (quotient, remainder) := Units.divMod s.units t.units
  let q ← (empty s.alloc).write quotient
  let r ← (empty s.alloc).write remainder
  return (q.withSign (s.negative != t.negative), r.withSign s.negative)

def emod (s m : BigInt) : Attempt BigInt := do
  let (q, r) ← s.divMod m
  q.release
  if r.negative then
    let divisor ← m.abs
    let residue ← r.add divisor
    divisor.release
    r.release
    return residue
  else
    return r

end CryptoPrimitives.BigInt
