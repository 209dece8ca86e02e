import CryptoPrimitives.Units.Product
import CryptoPrimitives.Units.Shift

/-!
# Division of units

By one limb from the top down, and in general by the long division of Knuth's Algorithm D: the
divisor is shifted until its top bit is set, each quotient limb is estimated from the top of the
running remainder, corrected at most twice, multiplied and subtracted, and lowered by one with the
divisor added back when the subtraction has borrowed.
-/

set_option autoImplicit false

namespace CryptoPrimitives.Units

def divLimb : Units → Limb → Units × Limb
  | [], _ => ([], 0)
  | u :: us, d =>
    let (qs, rem) := divLimb us d
    let (q, r) := Limb.divDouble rem u d
    (q :: qs, r)

/-! ## One quotient limb -/

structure Estimate where
  qhat : Nat
  rhat : Nat
  deriving DecidableEq, Repr

namespace Estimate

def first (top next vtop : Limb) : Estimate :=
  let num := top.toNat * Limb.base + next.toNat
  ⟨num / vtop.toNat, num % vtop.toNat⟩

def tooLarge (vnext third : Limb) (e : Estimate) : Bool :=
  Limb.base ≤ e.qhat || e.rhat * Limb.base + third.toNat < e.qhat * vnext.toNat

def lower (vtop : Limb) (e : Estimate) : Estimate := ⟨e.qhat - 1, e.rhat + vtop.toNat⟩

def correct (vtop vnext third : Limb) : Nat → Estimate → Estimate
  | 0, e => e
  | rounds + 1, e =>
    if e.tooLarge vnext third then
      let lowered := e.lower vtop
      if Limb.base ≤ lowered.rhat then lowered else correct vtop vnext third rounds lowered
    else e

end Estimate

def estimate (top next third vtop vnext : Limb) : Estimate :=
  -- Each correction adds the divisor's top limb, half the base at least, to the remainder.
  (Estimate.first top next vtop).correct vtop vnext third 2

variable [Rendition]

def subMul (q : Limb) : Units → Units → Limb → Limb → Units × Limb × Limb
  | w :: ws, v :: vs, carry, borrow =>
    let (lo, hi) := Limb.mac q v 0 carry
    let (d, b) := Limb.sbb w lo borrow
    let (rest, carryOut, borrowOut) := subMul q ws vs hi b
    (d :: rest, carryOut, borrowOut)
  | _, _, carry, borrow => ([], carry, borrow)

def quotientLimb (v window : Units) : Limb × Units :=
  let n := v.length
  let top := window.getD n 0
  let e := estimate top (window.getD (n - 1) 0) (window.getD (n - 2) 0)
    (v.getD (n - 1) 0) (v.getD (n - 2) 0)
  let q := e.qhat.toUInt64
  let (low, carry, borrow) := subMul q (window.take n) v 0 0
  let (d, b) := Limb.sbb top carry borrow
  if b = 0 then (q, low ++ [d])
  else
    let (low, c) := addCarry low v 0
    (q - 1, low ++ [d + c])

def longDivide (v : Units) : Units → Units → Units × Units
  | [], rem => ([], rem)
  | u :: us, rem =>
    let (qs, rem) := longDivide v us rem
    let (q, rem) := quotientLimb v (u :: rem)
    (q :: qs, rem.take v.length)

/-! ## Any divisor -/

def divLong (u v : Units) : Units × Units :=
  let n := v.length
  let shift := 64 - Limb.bitLength (v.getD (n - 1) 0)
  let vn := (shiftLeft v shift).1
  let (un, top) := shiftLeft u shift
  let un := un ++ [top]
  let (q, rem) := longDivide vn (un.take (u.length - n + 1)) (un.drop (u.length - n + 1))
  (q, (shiftRight rem shift).1)

def divMod (u v : Units) : Units × Units :=
  if compareUneven u v = .lt then ([], u)
  else
    match v with
    | [d] =>
      let (q, rem) := divLimb u d
      (q, [rem])
    | _ => divLong u v

end CryptoPrimitives.Units
