import CryptoPrimitives.Units.Sum

/-!
# Products of units

Schoolbook multiplication: one row per limb of the first factor, added into a window that moves up
by a limb after each row.
-/

set_option autoImplicit false

namespace CryptoPrimitives.Units

variable [Rendition]

def mulCarry : Units → Limb → Limb → Units × Limb
  | [], _, carry => ([], carry)
  | s :: ss, v, carry =>
    let (lo, hi) := Limb.mac s v 0 carry
    let (rest, out) := mulCarry ss v hi
    (lo :: rest, out)

def addMulCarry : Units → Units → Limb → Limb → Units × Limb
  | r :: rs, s :: ss, v, carry =>
    let (lo, hi) := Limb.mac s v r carry
    let (rest, out) := addMulCarry rs ss v hi
    (lo :: rest, out)
  | _, _, _, carry => ([], carry)

def mulRows (t : Units) : Units → Units → Units
  | [], window => window
  | s :: ss, window =>
    let (row, top) := addMulCarry window t s 0
    match row ++ [top] with
    | [] => []
    | settled :: rest => settled :: mulRows t ss rest

def mul (s t : Units) : Units := mulRows t s (zeros t.length)

def scaleAdd (us : Units) (v a : Limb) : Units :=
  let (low, carry) := mulCarry us v a
  if carry = 0 then low else low ++ [carry]

end CryptoPrimitives.Units
