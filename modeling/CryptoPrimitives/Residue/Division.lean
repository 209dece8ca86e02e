import CryptoPrimitives.BigInt.Division

/-!
# Residues by long division

Arithmetic modulo a fixed number of either parity. Every result is the canonical residue.
-/

set_option autoImplicit false

namespace CryptoPrimitives

structure DivisionReducer where
  modulus : BigInt
  deriving DecidableEq, Repr

namespace DivisionReducer

variable [Rendition] [Supply]

def create (m : BigInt) : Attempt DivisionReducer := do
  if m.isZero then throw .divisionByZero
  let modulus ← m.abs
  return ⟨modulus⟩

def reduce (r : DivisionReducer) (x : BigInt) : Attempt BigInt := x.emod r.modulus

def mulMod (r : DivisionReducer) (a b : BigInt) : Attempt BigInt := do
  let product ← a.mul b
  let residue ← product.emod r.modulus
  product.release
  return residue

def powerLoop (r : DivisionReducer) (b exponent : BigInt) : Nat → BigInt → Attempt BigInt
  | 0, acc => return acc
  | bits + 1, acc => do
    let squared ← r.mulMod acc acc
    acc.release
    if exponent.bitAt bits = 1 then
      let next ← r.mulMod squared b
      squared.release
      powerLoop r b exponent bits next
    else
      powerLoop r b exponent bits squared

def powMod (r : DivisionReducer) (b exponent : BigInt) : Attempt BigInt := do
  if exponent.negative then throw .invalidInput
  let residue ← r.reduce b
  let one ← BigInt.ofLimb 1
  let start ← one.emod r.modulus
  one.release
  let power ← powerLoop r residue exponent exponent.bitLength start
  residue.release
  return power

end DivisionReducer

end CryptoPrimitives
