import CryptoPrimitives.Units.Basic

/-!
# Sums and differences of units

Each operation ripples a carry or borrow from the low end and returns the one that leaves the top.
-/

set_option autoImplicit false

namespace CryptoPrimitives.Units

variable [Rendition]

def addCarry : Units → Units → Limb → Units × Limb
  | s :: ss, t :: ts, carry =>
    let (v, c) := Limb.adc s t carry
    let (rest, out) := addCarry ss ts c
    (v :: rest, out)
  | _, _, carry => ([], carry)

def subBorrow : Units → Units → Limb → Units × Limb
  | s :: ss, t :: ts, borrow =>
    let (v, b) := Limb.sbb s t borrow
    let (rest, out) := subBorrow ss ts b
    (v :: rest, out)
  | _, _, borrow => ([], borrow)

def addLimb : Units → Limb → Units × Limb
  | [], v => ([], v)
  | s :: ss, v =>
    let (x, c) := Limb.adc s v 0
    let (rest, out) := addLimb ss c
    (x :: rest, out)

def subLimb : Units → Limb → Units × Limb
  | [], v => ([], v)
  | s :: ss, v =>
    let (x, b) := Limb.sbb s v 0
    let (rest, out) := subLimb ss b
    (x :: rest, out)

def add (s t : Units) : Units :=
  let (long, short) := if t.length ≤ s.length then (s, t) else (t, s)
  let (low, c) := addCarry (long.take short.length) short 0
  let (high, carry) := addLimb (long.drop short.length) c
  low ++ high ++ [carry]

def sub (s t : Units) : Units :=
  let (low, b) := subBorrow (s.take t.length) t 0
  low ++ (subLimb (s.drop t.length) b).1

end CryptoPrimitives.Units
