import CryptoPrimitives.Units.Product

/-!
# Montgomery products of units

For an odd modulus of `m` limbs and `R = 2 ^ (64 * m)`, the product of two operands divided by `R`
modulo the modulus. Each limb of the second operand is one round: its multiple of the first operand
is added to the accumulator, a multiple of the modulus that clears the lowest limb is added, and
that limb is dropped.
-/

set_option autoImplicit false

namespace CryptoPrimitives

def Limb.inverseStep (n0 x : Limb) : Limb := x * (2 - n0 * x)

def Limb.negInverse (n0 : Limb) : Limb :=
  -- An odd limb is its own inverse to three bits, and each step doubles them.
  0 - (List.range 6).foldl (fun x _ => Limb.inverseStep n0 x) n0

namespace Units

variable [Rendition]

structure MontgomeryAcc where
  limbs : Units
  top : Limb
  deriving DecidableEq, Repr

def montgomeryRound (n : Units) (nPrime : Limb) (a : Units) (t : MontgomeryAcc) (b : Limb) :
    MontgomeryAcc :=
  let (sum, c) := addMulCarry t.limbs a b 0
  let (top, spill) := Limb.adc t.top c 0
  let q := sum.headD 0 * nPrime
  let (cleared, c) := addMulCarry sum n q 0
  let (next, c2) := Limb.adc top c 0
  ⟨cleared.tail ++ [next], spill + c2⟩

def montgomeryRounds (n : Units) (nPrime : Limb) (a b : Units) : MontgomeryAcc :=
  b.foldl (montgomeryRound n nPrime a) ⟨zeros n.length, 0⟩

def montgomeryFinish (n : Units) (t : MontgomeryAcc) : Units :=
  let (reduced, borrow) := subBorrow t.limbs n 0
  let (_, borrow) := Limb.sbb t.top 0 borrow
  assignIf (borrow != 0) reduced t.limbs

def montgomeryMul (n : Units) (nPrime : Limb) (a b : Units) : Units :=
  montgomeryFinish n (montgomeryRounds n nPrime a b)

def scanSelect (table : List Units) (index : Nat) (buffer : Units) : Units :=
  table.zipIdx.foldl (fun held entry => assignIf (entry.2 == index) held entry.1) buffer

end Units

end CryptoPrimitives
