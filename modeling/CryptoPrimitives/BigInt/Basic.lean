import CryptoPrimitives.BigInt.Storage
import CryptoPrimitives.Fault

/-!
# Whole numbers of any size

A number is a sign and a buffer of limbs of which the first `size` are significant. Every operation
leaves the buffer canonical: the top significant limb is not zero, all limbs past it are, and zero
is not negative. An operation that writes into a number keeps its buffer if the result fits and
otherwise grows it; capacity never shrinks.
-/

set_option autoImplicit false

namespace CryptoPrimitives

structure BigInt where
  buffer : Units
  size : Nat
  negative : Bool
  alloc : Allocator
  deriving DecidableEq, Repr

abbrev Attempt := ExceptT Fault Booked

namespace BigInt

/-! ## Views -/

def units (x : BigInt) : Units := x.buffer.take x.size

def capacity (x : BigInt) : Nat := x.buffer.length

def magnitude (x : BigInt) : Nat := Units.val x.units

def toInt (x : BigInt) : Int := if x.negative then -(x.magnitude : Int) else x.magnitude

def bitLength (x : BigInt) : Nat := Units.bitLength x.units

def isZero (x : BigInt) : Bool := x.size == 0

def isOne (x : BigInt) : Bool := !x.negative && x.units == [1]

def isOdd (x : BigInt) : Bool := x.size != 0 && x.buffer.headD 0 &&& 1 == 1

def isEven (x : BigInt) : Bool := !x.isOdd

def bitAt (x : BigInt) (i : Nat) : Limb :=
  (x.units.getD (i / Limb.bits) 0 >>> (i % Limb.bits).toUInt64) &&& 1

/-! ## Storage -/

variable [Supply]

def empty (alloc : Allocator) : BigInt := ⟨[], 0, false, alloc⟩

def zero : BigInt := empty .secure

def reserve (x : BigInt) (need : Nat) : Booked BigInt := do
  if need ≤ x.capacity then return x
  let length := Allocator.nextCapacity x.capacity need
  let buffer ←
    if x.buffer.isEmpty then x.alloc.take length else x.alloc.grow x.buffer length
  return { x with buffer }

def clear (x : BigInt) (length : Nat) : Booked BigInt := do
  let x ← x.reserve length
  let used := max x.size length
  return { x with buffer := Units.zeros used ++ x.buffer.drop used, size := 0, negative := false }

def trim (x : BigInt) : BigInt :=
  let size := Units.significant x.buffer
  { x with size, negative := x.negative && size != 0 }

def write (x : BigInt) (limbs : Units) : Booked BigInt := do
  let x ← x.clear limbs.length
  return trim { x with buffer := limbs ++ x.buffer.drop limbs.length }

def withSign (x : BigInt) (negative : Bool) : BigInt :=
  { x with negative := negative && x.size != 0 }

def setBit (x : BigInt) (i : Nat) : Booked BigInt := do
  let place := i / Limb.bits
  let x ← x.reserve (place + 1)
  let limb := x.buffer.getD place 0 ||| (1 <<< (i % Limb.bits).toUInt64)
  return { x with buffer := x.buffer.set place limb, size := max x.size (place + 1) }

def wipe (x : BigInt) : BigInt :=
  { x with buffer := Units.zeros x.capacity, size := 0, negative := false }

def release (x : BigInt) : Booked Unit :=
  if x.buffer.isEmpty then return () else x.alloc.giveBack (Units.zeros x.capacity)

/-! ## Making numbers -/

def ofUnits (limbs : Units) : Booked BigInt := zero.write limbs

def ofLimb (v : Limb) : Booked BigInt := ofUnits [v]

def ofInt64 (v : Int64) : Booked BigInt := do
  let x ← ofLimb v.toInt.natAbs.toUInt64
  return x.withSign (v < 0)

def copy (x : BigInt) : Booked BigInt := do
  let r ← (empty x.alloc).write x.units
  return { r with negative := x.negative }

def neg (x : BigInt) : Booked BigInt := do
  let r ← x.copy
  return r.withSign (!x.negative)

def abs (x : BigInt) : Booked BigInt := do
  let r ← x.copy
  return { r with negative := false }

end BigInt

end CryptoPrimitives
