import CryptoPrimitives.BigInt.Order
import CryptoPrimitives.Units.Product

/-!
# Sums, differences and products of numbers

The `write` forms write the result into an existing number; the `assign` forms are `d = d op t` and
work on a copy of `d`; the plain forms make a new number from the first operand's allocator.
-/

set_option autoImplicit false

namespace CryptoPrimitives.BigInt

variable [Rendition] [Supply]

def writeSignedSum (d s : BigInt) (sNeg : Bool) (t : BigInt) (tNeg : Bool) : Booked BigInt := do
  if sNeg = tNeg then
    let d ← d.write (Units.add s.units t.units)
    return d.withSign sNeg
  else if s.compareAbs t = .lt then
    let d ← d.write (Units.sub t.units s.units)
    return d.withSign tNeg
  else
    let d ← d.write (Units.sub s.units t.units)
    return d.withSign sNeg

def writeSum (d s t : BigInt) : Booked BigInt := d.writeSignedSum s s.negative t t.negative

def writeDifference (d s t : BigInt) : Booked BigInt :=
  d.writeSignedSum s s.negative t (!t.negative && !t.isZero)

def writeProduct (d s t : BigInt) : Booked BigInt := do
  if s.isZero || t.isZero then d.clear 0
  else
    let d ← d.write (Units.mul s.units t.units)
    return d.withSign (s.negative != t.negative)

/-! ## In place -/

def addInPlace (d t : BigInt) : Booked BigInt := do
  let s ← d.copy
  let d ← d.writeSum s t
  s.release
  return d

def subInPlace (d t : BigInt) : Booked BigInt := do
  let s ← d.copy
  let d ← d.writeDifference s t
  s.release
  return d

def mulInPlace (d t : BigInt) : Booked BigInt := do
  let s ← d.copy
  let d ← d.writeProduct s t
  s.release
  return d

def squareInPlace (d : BigInt) : Booked BigInt := do
  let s ← d.copy
  let d ← d.writeProduct s s
  s.release
  return d

/-! ## New numbers -/

def add (s t : BigInt) : Booked BigInt := (empty s.alloc).writeSum s t

def sub (s t : BigInt) : Booked BigInt := (empty s.alloc).writeDifference s t

def mul (s t : BigInt) : Booked BigInt := (empty s.alloc).writeProduct s t

def square (s : BigInt) : Booked BigInt := s.mul s

end CryptoPrimitives.BigInt
