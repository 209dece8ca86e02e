import CryptoPrimitives.Units.Basic

/-!
# Shifts of units by less than a limb

The bits that leave one limb enter the next. Leftward they travel up and leave right-aligned,
rightward they travel down and leave left-aligned.
-/

set_option autoImplicit false

namespace CryptoPrimitives.Units

def shiftLeftFrom (k : Limb) : Limb → Units → Units × Limb
  | carry, [] => ([], carry)
  | carry, u :: us =>
    let (rest, out) := shiftLeftFrom k (u >>> (64 - k)) us
    (((u <<< k) ||| carry) :: rest, out)

def shiftRightFrom (k : Limb) : Units → Units × Limb
  | [] => ([], 0)
  | u :: us =>
    let (rest, carry) := shiftRightFrom k us
    (((u >>> k) ||| carry) :: rest, u <<< (64 - k))

def shiftLeft (us : Units) (k : Nat) : Units × Limb :=
  if k = 0 then (us, 0) else shiftLeftFrom k.toUInt64 0 us

def shiftRight (us : Units) (k : Nat) : Units × Limb :=
  if k = 0 then (us, 0) else shiftRightFrom k.toUInt64 us

end CryptoPrimitives.Units
