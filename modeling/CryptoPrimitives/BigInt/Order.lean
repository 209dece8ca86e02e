import CryptoPrimitives.BigInt.Basic

/-!
# Order, equality and selection of numbers

Two numbers are compared by sign and then by magnitude; equality is that of sign and limbs. The
limb-by-limb equality and the selection walk the longer operand whatever the values are.
-/

set_option autoImplicit false

namespace CryptoPrimitives.BigInt

def compareAbs (a b : BigInt) : Ordering := Units.compareUneven a.units b.units

def compare (a b : BigInt) : Ordering :=
  match a.negative, b.negative with
  | true, false => .lt
  | false, true => .gt
  | false, false => a.compareAbs b
  | true, true => b.compareAbs a

def partialCompare (a b : BigInt) : Option Ordering := some (a.compare b)

def same (a b : BigInt) : Bool := a.negative == b.negative && a.units == b.units

def sameLimbs (a b : Units) : Bool :=
  let n := max a.length b.length
  (List.zipWith (· == ·) (a.padTo n) (b.padTo n)).foldl (· && ·) true

def constEq (a b : BigInt) : Bool := a.negative == b.negative && sameLimbs a.units b.units

def select [Supply] (a b : BigInt) (choice : Bool) : Booked BigInt := do
  let n := max a.units.length b.units.length
  let r ← ofUnits (Units.assignIf choice (a.units.padTo n) (b.units.padTo n))
  return r.withSign (if choice then b.negative else a.negative)

end CryptoPrimitives.BigInt
