import CryptoPrimitives.Units.Division

/-!
# Units with stated lengths

Every operation names how many limbs of each operand it reads or writes and refuses an operand that
holds fewer. Only the stated limbs of a destination change: what lies past them is carried over. The
first precondition that fails is the one reported, in the order in which an operation checks them.
-/

set_option autoImplicit false

namespace CryptoPrimitives

inductive Precondition
  | short (operand : String) (held required : Nat)
  | shiftTooFar (k : Nat)
  | sourceTooLong (held room : Nat)
  | zeroDivisor
  deriving DecidableEq, Repr

def Precondition.message : Precondition → String
  | short operand held required => s!"ccn: {operand} holds {held} units, {required} required"
  | shiftTooFar k => s!"ccn: shift of {k} bits"
  | sourceTooLong held room => s!"ccn: source of {held} units does not fit {room}"
  | zeroDivisor => "ccn: division by a zero unit"

abbrev Checked := Except Precondition

structure Returned where
  limb : Limb
  units : Units
  deriving DecidableEq, Repr

namespace Units.Checked

def holds (operand : String) (required : Nat) (us : Units) : Checked Unit :=
  if required ≤ us.length then .ok () else .error (.short operand us.length required)

def demand (condition : Bool) (failure : Precondition) : Checked Unit :=
  if condition then .ok () else .error failure

def store (limbs r : Units) : Units := limbs ++ r.drop limbs.length

section Measures

def compare (n : Nat) (s t : Units) : Checked Ordering := do
  holds "s" n s
  holds "t" n t
  return Units.compare (s.take n) (t.take n)

def compareUneven (ns : Nat) (s : Units) (nt : Nat) (t : Units) : Checked Ordering := do
  holds "s" ns s
  holds "t" nt t
  return Units.compareUneven (s.take ns) (t.take nt)

def significant (n : Nat) (s : Units) : Checked Nat := do
  holds "s" n s
  return Units.significant (s.take n)

def isZero (n : Nat) (s : Units) : Checked Bool := do
  holds "s" n s
  return Units.isZero (s.take n)

def bitLength (n : Nat) (s : Units) : Checked Nat := do
  holds "s" n s
  return Units.bitLength (s.take n)

end Measures

section Moves

def set (n : Nat) (r s : Units) : Checked Units := do
  holds "r" n r
  holds "s" n s
  return store (s.take n) r

def zero (n : Nat) (r : Units) : Checked Units := do
  holds "r" n r
  return store (zeros n) r

def setWithin (n : Nat) (r : Units) (ns : Nat) (s : Units) : Checked Units := do
  demand (ns ≤ n) (.sourceTooLong ns n)
  holds "r" n r
  let r ← set ns r s
  let high ← zero (n - ns) (r.drop ns)
  return r.take ns ++ high

def assignIf (n : Nat) (r s : Units) (choice : Bool) : Checked Units := do
  holds "r" n r
  holds "s" n s
  return store (Units.assignIf choice (r.take n) (s.take n)) r

def swapIf (n : Nat) (a b : Units) (choice : Bool) : Checked (Units × Units) := do
  holds "a" n a
  holds "b" n b
  let pairs := List.zipWith (Limb.swap choice) (a.take n) (b.take n)
  return (store (pairs.map Prod.fst) a, store (pairs.map Prod.snd) b)

def shiftLeft (n : Nat) (r : Units) (k : Nat) : Checked Returned := do
  demand (k < Limb.bits) (.shiftTooFar k)
  holds "r" n r
  let (moved, out) := Units.shiftLeft (r.take n) k
  return ⟨out, store moved r⟩

def shiftRight (n : Nat) (r : Units) (k : Nat) : Checked Returned := do
  demand (k < Limb.bits) (.shiftTooFar k)
  holds "r" n r
  let (moved, out) := Units.shiftRight (r.take n) k
  return ⟨out, store moved r⟩

end Moves

section Arithmetic

variable [Rendition]

def add (n : Nat) (r s t : Units) : Checked Returned := do
  holds "r" n r
  holds "s" n s
  holds "t" n t
  let (sum, carry) := addCarry (s.take n) (t.take n) 0
  return ⟨carry, store sum r⟩

def sub (n : Nat) (r s t : Units) : Checked Returned := do
  holds "r" n r
  holds "s" n s
  holds "t" n t
  let (difference, borrow) := subBorrow (s.take n) (t.take n) 0
  return ⟨borrow, store difference r⟩

def addOnto (n : Nat) (r t : Units) : Checked Returned := do
  holds "r" n r
  holds "t" n t
  let (sum, carry) := addCarry (r.take n) (t.take n) 0
  return ⟨carry, store sum r⟩

def subFrom (n : Nat) (r t : Units) : Checked Returned := do
  holds "r" n r
  holds "t" n t
  let (difference, borrow) := subBorrow (r.take n) (t.take n) 0
  return ⟨borrow, store difference r⟩

def addLimb (n : Nat) (r s : Units) (v : Limb) : Checked Returned := do
  holds "r" n r
  holds "s" n s
  let (sum, carry) := Units.addLimb (s.take n) v
  return ⟨carry, store sum r⟩

def subLimb (n : Nat) (r s : Units) (v : Limb) : Checked Returned := do
  holds "r" n r
  holds "s" n s
  let (difference, borrow) := Units.subLimb (s.take n) v
  return ⟨borrow, store difference r⟩

def mulLimb (n : Nat) (r s : Units) (v : Limb) : Checked Returned := do
  holds "r" n r
  holds "s" n s
  let (product, top) := mulCarry (s.take n) v 0
  return ⟨top, store product r⟩

def addMulLimb (n : Nat) (r s : Units) (v : Limb) : Checked Returned := do
  holds "r" n r
  holds "s" n s
  let (sum, top) := addMulCarry (r.take n) (s.take n) v 0
  return ⟨top, store sum r⟩

def mulLengths (r : Units) (ns : Nat) (s : Units) (nt : Nat) (t : Units) : Checked Units := do
  holds "r" (ns + nt) r
  holds "s" ns s
  holds "t" nt t
  return store (Units.mul (s.take ns) (t.take nt)) r

def mul (n : Nat) (r s t : Units) : Checked Units := mulLengths r n s n t

def divLimb (n : Nat) (q s : Units) (d : Limb) : Checked Returned := do
  demand (d != 0) .zeroDivisor
  holds "q" n q
  holds "s" n s
  let (quotient, rem) := Units.divLimb (s.take n) d
  return ⟨rem, store quotient q⟩

end Arithmetic

end Units.Checked

end CryptoPrimitives
