/-!
# Limbs

A limb is one unit of a big number: 64 bits. The carry primitives come in two renditions, one over
a double-width accumulator and one that splits every limb in halves so that nothing leaves a limb.
Everything above works in either; `wide` is the one in force unless another is given.
-/

set_option autoImplicit false

namespace CryptoPrimitives

abbrev Limb := UInt64

abbrev DoubleLimb := BitVec 128

class inductive Rendition
  | wide
  | split
  deriving DecidableEq

instance defaultRendition : Rendition := .wide

namespace Limb

def bits : Nat := 64

def base : Nat := 0x10000000000000000

def double (a : Limb) : DoubleLimb := a.toBitVec.setWidth 128

def low (t : DoubleLimb) : Limb := ⟨t.setWidth 64⟩

def high (t : DoubleLimb) : Limb := ⟨(t >>> 64).setWidth 64⟩

/-! ## Over a double-width accumulator -/

def Wide.adc (a b carry : Limb) : Limb × Limb :=
  let t := double a + double b + double carry
  (low t, high t)

def Wide.sbb (a b borrow : Limb) : Limb × Limb :=
  let t := double a - (double b + double borrow)
  (low t, high t &&& 1)

def Wide.mac (a b c carry : Limb) : Limb × Limb :=
  let t := double a * double b + double c + double carry
  (low t, high t)

/-! ## In halves -/

def halfMask : Limb := 0xffffffff

def lowHalf (a : Limb) : Limb := a &&& halfMask

def highHalf (a : Limb) : Limb := a >>> 32

def join (hi lo : Limb) : Limb := (hi <<< 32) ||| lowHalf lo

def Split.adc (a b carry : Limb) : Limb × Limb :=
  let lo := lowHalf a + lowHalf b + lowHalf carry
  let hi := highHalf a + highHalf b + highHalf carry + highHalf lo
  (join hi lo, highHalf hi)

def Split.sbb (a b borrow : Limb) : Limb × Limb :=
  let lo := lowHalf a - lowHalf b - lowHalf borrow
  let halfBorrow : Limb := (-(lo.toInt64 >>> 32)).toUInt64
  let hi := highHalf a - highHalf b - highHalf borrow - halfBorrow
  (join hi lo, hi >>> 63)

def Split.mac (a b c carry : Limb) : Limb × Limb :=
  let a0 := lowHalf a
  let a1 := highHalf a
  let b0 := lowHalf b
  let b1 := highHalf b
  let p00 := a0 * b0
  let p01 := a0 * b1
  let p10 := a1 * b0
  let p11 := a1 * b1
  let mid := highHalf p00 + lowHalf p01 + lowHalf p10
  let lo := lowHalf p00 ||| (lowHalf mid <<< 32)
  let hi := p11 + highHalf p01 + highHalf p10 + highHalf mid
  let (lo, k1) := Split.adc lo c 0
  let (lo, k2) := Split.adc lo carry 0
  (lo, hi + k1 + k2)

/-! ## In the rendition in force -/

def adc [rendition : Rendition] (a b carry : Limb) : Limb × Limb :=
  match rendition with
  | .wide => Wide.adc a b carry
  | .split => Split.adc a b carry

def sbb [rendition : Rendition] (a b borrow : Limb) : Limb × Limb :=
  match rendition with
  | .wide => Wide.sbb a b borrow
  | .split => Split.sbb a b borrow

def mac [rendition : Rendition] (a b c carry : Limb) : Limb × Limb :=
  match rendition with
  | .wide => Wide.mac a b c carry
  | .split => Split.mac a b c carry

def divDouble (hi lo d : Limb) : Limb × Limb :=
  let num := (double hi <<< 64) ||| double lo
  (low (num / double d), low (num % double d))

end Limb

end CryptoPrimitives
