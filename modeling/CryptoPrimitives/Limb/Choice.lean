import CryptoPrimitives.Limb.Basic

/-!
# Choosing by mask

Selection, a non-zero test and a bit length without a branch on the value.
-/

set_option autoImplicit false

namespace CryptoPrimitives.Limb

def mask (choice : Bool) : Limb := 0 - choice.toUInt64

def choose (choice : Bool) (a b : Limb) : Limb := a ^^^ (mask choice &&& (a ^^^ b))

def isNonzero (x : Limb) : Bool := (x ||| (0 - x)) >>> 63 == 1

def bitLenStep (s : Limb × Limb) (shift : Limb) : Limb × Limb :=
  let hi := s.1 >>> shift
  let nonzero := isNonzero hi
  (choose nonzero s.1 hi, s.2 + (shift &&& mask nonzero))

def bitLength (x : Limb) : Nat :=
  let (top, n) := [32, 16, 8, 4, 2, 1].foldl bitLenStep (x, 0)
  (n + (top &&& 1)).toNat

def swap (choice : Bool) (a b : Limb) : Limb × Limb :=
  let t := mask choice &&& (a ^^^ b)
  (a ^^^ t, b ^^^ t)

end CryptoPrimitives.Limb
