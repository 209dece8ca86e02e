import CryptoPrimitives.Limb.Choice

/-!
# Units

A magnitude is a list of limbs, least significant first; `val` is the number it stands for. Leading
zero limbs are allowed, so one number has many lists. The measures below walk all of a list from
its low end, later limbs overriding what earlier ones said.
-/

set_option autoImplicit false

namespace CryptoPrimitives

abbrev Units := List Limb

namespace Units

def val : Units → Nat
  | [] => 0
  | u :: us => u.toNat + Limb.base * val us

def ofNat (n : Nat) : Units :=
  if n = 0 then [] else n.toUInt64 :: ofNat (n / Limb.base)
termination_by n
decreasing_by exact Nat.div_lt_self (Nat.pos_of_ne_zero ‹_›) (by decide)

def zeros (n : Nat) : Units := List.replicate n 0

def padTo (n : Nat) (us : Units) : Units := us ++ zeros (n - us.length)

/-! ## Measures -/

def significantFrom : Nat → Nat → Units → Nat
  | _, count, [] => count
  | i, count, u :: us => significantFrom (i + 1) (if Limb.isNonzero u then i + 1 else count) us

def significant (us : Units) : Nat := significantFrom 0 0 us

def bitLengthFrom : Nat → Nat → Units → Nat
  | _, bits, [] => bits
  | i, bits, u :: us =>
    bitLengthFrom (i + 1) (if Limb.isNonzero u then i * Limb.bits + Limb.bitLength u else bits) us

def bitLength (us : Units) : Nat := bitLengthFrom 0 0 us

def isZero (us : Units) : Bool := us.foldl (· ||| ·) 0 == 0

/-! ## Order -/

def compareFrom : Ordering → Units → Units → Ordering
  | verdict, s :: ss, t :: ts =>
    compareFrom (if s < t then .lt else if t < s then .gt else verdict) ss ts
  | verdict, _, _ => verdict

def compare (s t : Units) : Ordering := compareFrom .eq s t

def compareUneven (s t : Units) : Ordering :=
  if s.length ≤ t.length then
    if isZero (t.drop s.length) then compare s t else .lt
  else
    if isZero (s.drop t.length) then compare s t else .gt

/-! ## Selection -/

def assignIf (choice : Bool) (r s : Units) : Units := List.zipWith (Limb.choose choice) r s

end Units

end CryptoPrimitives
