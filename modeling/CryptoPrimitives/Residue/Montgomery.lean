import CryptoPrimitives.BigInt.Bytes
import CryptoPrimitives.BigInt.Division
import CryptoPrimitives.BigInt.Shift
import CryptoPrimitives.Units.Checked
import CryptoPrimitives.Units.Montgomery

/-!
# Residues in Montgomery form

For an odd modulus `N` of `size` limbs, residues are kept multiplied by `R = 2 ^ (64 * size)`.
Exponentiation takes the exponent in windows of a fixed width, each costing the same squarings and
one product with an entry of a table of small powers.
-/

set_option autoImplicit false

namespace CryptoPrimitives

/-- The constants of one odd modulus: `nPrime` times its lowest limb is one below zero, and
`rSquared` is the square of `R` reduced. -/
structure MontgomeryContext where
  modulus : BigInt
  size : Nat
  nPrime : Limb
  rSquared : BigInt
  deriving DecidableEq, Repr

namespace MontgomeryContext

variable [Rendition] [Supply]

def create (m : BigInt) : Attempt MontgomeryContext := do
  if m.isZero then throw .divisionByZero
  if m.isEven then throw .invalidModulus
  let modulus ← m.abs
  let size := modulus.size
  let one ← BigInt.ofLimb 1
  let square ← one.shiftLeft (2 * size * Limb.bits)
  one.release
  let rSquared ← square.emod modulus
  square.release
  return ⟨modulus, size, Limb.negInverse (modulus.units.headD 0), rSquared⟩

/-! ## Products -/

def mulUnits (c : MontgomeryContext) (a b : Units) : Units :=
  Units.montgomeryMul c.modulus.units c.nPrime a b

def padded (c : MontgomeryContext) (x : BigInt) : Units := x.units.padTo c.size

def ofUnits (c : MontgomeryContext) (limbs : Units) : Booked BigInt :=
  (BigInt.empty c.modulus.alloc).write limbs

def mulFitting (c : MontgomeryContext) (a b : BigInt) : Booked BigInt :=
  c.ofUnits (c.mulUnits (c.padded a) (c.padded b))

def fits (c : MontgomeryContext) (x : BigInt) : Checked Unit :=
  Units.Checked.demand (x.size ≤ c.size) (.sourceTooLong x.size c.size)

def mul (c : MontgomeryContext) (a b : BigInt) : Checked (Booked BigInt) := do
  c.fits a
  c.fits b
  return c.mulFitting a b

def square (c : MontgomeryContext) (a : BigInt) : Checked (Booked BigInt) := c.mul a a

def divR (c : MontgomeryContext) (a : BigInt) : Booked BigInt := do
  let one ← BigInt.ofLimb 1
  let r ← c.mulFitting a one
  one.release
  return r

def toMontgomery (c : MontgomeryContext) (a : BigInt) : Attempt BigInt := do
  let residue ← a.emod c.modulus
  let r ← c.mulFitting residue c.rSquared
  residue.release
  return r

def fromMontgomery (c : MontgomeryContext) (a : BigInt) : Checked (Booked BigInt) := do
  c.fits a
  return c.divR a

/-! ## Exponentiation -/

def windowSize (bits : Nat) : Nat :=
  if bits > 512 then 6
  else if bits > 256 then 5
  else if bits > 128 then 4
  else if bits > 64 then 3
  else if bits > 32 then 2
  else 1

def powers (c : MontgomeryContext) (b : Units) : Nat → Units → List Units
  | 0, _ => []
  | count + 1, last =>
    let next := c.mulUnits last b
    next :: powers c b count next

def windowValue (exponent : BigInt) (width index : Nat) : Nat :=
  (List.range width).foldl
    (fun acc b => acc ||| (exponent.bitAt (index * width + b)).toNat <<< b) 0

def squarings (c : MontgomeryContext) : Nat → Units → Units
  | 0, acc => acc
  | count + 1, acc => squarings c count (c.mulUnits acc acc)

def windowLoop (c : MontgomeryContext) (table : List Units) (exponent : BigInt) (width : Nat) :
    Nat → Units → Units → Units
  | 0, acc, _ => acc
  | windows + 1, acc, held =>
    let acc := c.squarings width acc
    let held := Units.scanSelect table (windowValue exponent width windows) held
    windowLoop c table exponent width windows (c.mulUnits acc held) held

def powerUnits (c : MontgomeryContext) (one b : Units) (exponent : BigInt) : Units :=
  let bits := exponent.bitLength
  let width := windowSize bits
  let table := one :: b :: c.powers b (1 <<< width - 2) b
  c.windowLoop table exponent width (ceilDiv bits width) one (Units.zeros c.size)

def pow (c : MontgomeryContext) (b exponent : BigInt) : Attempt BigInt := do
  if exponent.negative then throw .invalidInput
  let one ← BigInt.ofLimb 1
  let oneForm ← c.toMontgomery one
  one.release
  let baseForm ← c.toMontgomery b
  let power ← c.ofUnits (c.powerUnits (c.padded oneForm) (c.padded baseForm) exponent)
  oneForm.release
  baseForm.release
  let r ← c.divR power
  power.release
  return r

/-! ## Reduction -/

def reduce (c : MontgomeryContext) (x : BigInt) : Attempt BigInt := x.emod c.modulus

def mulMod (c : MontgomeryContext) (a b : BigInt) : Attempt BigInt := do
  let a ← c.reduce a
  let b ← c.reduce b
  let product ← c.mulFitting a b
  a.release
  b.release
  let r ← c.mulFitting product c.rSquared
  product.release
  return r

def powMod (c : MontgomeryContext) (b exponent : BigInt) : Attempt BigInt := c.pow b exponent

def debugText (c : MontgomeryContext) : String :=
  "MontgomeryCtx \x7b modulus: " ++ c.modulus.debugText ++ ", m_size: " ++ toString c.size ++
    ", n_prime: " ++ toString c.nPrime.toNat ++ ", r_squared: " ++ c.rSquared.debugText ++ " \x7d"

end MontgomeryContext

end CryptoPrimitives
