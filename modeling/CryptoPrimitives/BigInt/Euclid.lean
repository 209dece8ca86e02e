import CryptoPrimitives.BigInt.Division

/-!
# Greatest common divisors and inverses

Euclid's algorithm and its extended form. The loops are bounded by the value of the number that
each step makes smaller.
-/

set_option autoImplicit false

namespace CryptoPrimitives.BigInt

variable [Rendition] [Supply]

/-! ## Greatest common divisor -/

def euclidStep (a b : BigInt) : Attempt (BigInt × BigInt) := do
  let (q, r) ← a.divMod b
  q.release
  a.release
  return (b, r)

def euclid : Nat → BigInt → BigInt → Attempt BigInt
  | 0, a, b => do
    b.release
    return a
  | steps + 1, a, b => do
    if b.isZero then
      b.release
      return a
    else
      let (a, b) ← euclidStep a b
      euclid steps a b

def gcd (s t : BigInt) : Attempt BigInt := do
  if s.isZero && t.isZero then throw .invalidInput
  let a ← s.abs
  let b ← t.abs
  if a.compare b = .lt then euclid (a.magnitude + 1) b a
  else euclid (b.magnitude + 1) a b

/-! ## Inverse -/

/-- Two neighbours of the remainder sequence with their coefficients: `oldR` is `oldS` times the
number to invert, and `r` is `s` times it, up to multiples of the modulus. -/
structure Bezout where
  oldR : BigInt
  r : BigInt
  oldS : BigInt
  s : BigInt
  deriving DecidableEq, Repr

def bezoutStep (e : Bezout) : Attempt Bezout := do
  let (quotient, remainder) ← e.oldR.divMod e.r
  e.oldR.release
  let product ← quotient.mul e.s
  let s ← e.oldS.sub product
  product.release
  e.oldS.release
  quotient.release
  return ⟨e.r, remainder, e.s, s⟩

def bezout : Nat → Bezout → Attempt Bezout
  | 0, e => return e
  | steps + 1, e => do
    if e.r.isZero then return e
    let e ← bezoutStep e
    bezout steps e

def modInverse (x m : BigInt) : Attempt BigInt := do
  if m.isZero then throw .divisionByZero
  let m ← m.abs
  if m.isOne then
    m.release
    throw .invalidModulus
  let oldR ← x.emod m
  if oldR.isZero then
    oldR.release
    m.release
    throw .noInverse
  let r ← m.copy
  let oldS ← ofLimb 1
  let e ← bezout (m.magnitude + 1) ⟨oldR, r, oldS, zero⟩
  e.r.release
  e.s.release
  if e.oldR.isOne then
    e.oldR.release
    let inverse ← e.oldS.emod m
    e.oldS.release
    m.release
    return inverse
  else
    e.oldR.release
    e.oldS.release
    m.release
    throw .noInverse

end CryptoPrimitives.BigInt
