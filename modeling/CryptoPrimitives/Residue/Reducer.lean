import CryptoPrimitives.Residue.Division
import CryptoPrimitives.Residue.Montgomery

/-!
# Reducers

Arithmetic modulo a fixed number, whichever way it is done: in Montgomery form for an odd modulus,
by long division for any.
-/

set_option autoImplicit false

namespace CryptoPrimitives

inductive Reducer
  | division (r : DivisionReducer)
  | montgomery (c : MontgomeryContext)
  deriving DecidableEq, Repr

namespace Reducer

def modulus : Reducer → BigInt
  | division r => r.modulus
  | montgomery c => c.modulus

variable [Rendition] [Supply]

def forModulus (m : BigInt) : Attempt Reducer := do
  if m.isZero then throw .divisionByZero
  if m.isOdd then
    let c ← MontgomeryContext.create m
    return .montgomery c
  else
    let r ← DivisionReducer.create m
    return .division r

def reduce : Reducer → BigInt → Attempt BigInt
  | division r, x => r.reduce x
  | montgomery c, x => c.reduce x

def mulMod : Reducer → BigInt → BigInt → Attempt BigInt
  | division r, a, b => r.mulMod a b
  | montgomery c, a, b => c.mulMod a b

def powMod : Reducer → BigInt → BigInt → Attempt BigInt
  | division r, b, exponent => r.powMod b exponent
  | montgomery c, b, exponent => c.powMod b exponent

def release : Reducer → Booked Unit
  | division r => r.modulus.release
  | montgomery c => do
    c.modulus.release
    c.rSquared.release

end Reducer

def BigInt.powMod [Rendition] [Supply] (b exponent m : BigInt) : Attempt BigInt := do
  let r ← Reducer.forModulus m
  let power ← ExceptT.lift (r.powMod b exponent).run
  r.release
  ExceptT.mk (pure power)

end CryptoPrimitives
