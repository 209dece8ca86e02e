import CryptoPrimitives.Proofs.Limb.Carry

/-!
# The two renditions of the carry primitives

The value equations determine both limbs of a result, so the renditions are one function wherever
both are sound: everywhere for the sum and the product, and for the difference as long as no more
than a unit is owed beside a second operand. The checked forms refuse as soon as a sum or a product
leaves its width. They never refuse, so nothing but the differences wraps in either rendition.
-/

set_option autoImplicit false

namespace CryptoPrimitives

namespace Limb

/-! ## One function -/

/-- Low and high limb are determined by the number that they stand for. -/
theorem pair_ext {x y : Limb × Limb}
    (h : x.1.toNat + 2 ^ 64 * x.2.toNat = y.1.toNat + 2 ^ 64 * y.2.toNat) : x = y := by
  have hx := x.1.toNat_lt
  have hy := y.1.toNat_lt
  have h1 : x.1.toNat = y.1.toNat := by omega
  have h2 : x.2.toNat = y.2.toNat := by omega
  exact Prod.ext (UInt64.toNat_inj.mp h1) (UInt64.toNat_inj.mp h2)

theorem split_adc_eq (a b carry : Limb) : Split.adc a b carry = Wide.adc a b carry :=
  pair_ext ((split_adc_value a b carry).trans (wide_adc_value a b carry).symm)

theorem split_mac_eq (a b c carry : Limb) : Split.mac a b c carry = Wide.mac a b c carry :=
  pair_ext ((split_mac_value a b c carry).trans (wide_mac_value a b c carry).symm)

/-- Difference and borrow are determined too: the difference is below the base. -/
theorem split_sbb_eq (a b borrow : Limb) (h : borrow.toNat ≤ 1 ∨ b = 0) :
    Split.sbb a b borrow = Wide.sbb a b borrow := by
  have hs := split_sbb_value a b borrow h
  have hw := wide_sbb_value a b borrow h
  have hsl := (Split.sbb a b borrow).1.toNat_lt
  have hwl := (Wide.sbb a b borrow).1.toNat_lt
  have h1 : (Split.sbb a b borrow).1.toNat = (Wide.sbb a b borrow).1.toNat := by omega
  have h2 : (Split.sbb a b borrow).2.toNat = (Wide.sbb a b borrow).2.toNat := by omega
  exact Prod.ext (UInt64.toNat_inj.mp h1) (UInt64.toNat_inj.mp h2)

-- Past that they part: two units owed beside a whole one leave a borrow in halves only.
example : Split.sbb 0 0xffffffffffffffff 2 ≠ Wide.sbb 0 0xffffffffffffffff 2 := by decide

theorem wide_sbb_difference (a b borrow : Limb) (h : borrow.toNat ≤ 1 ∨ b = 0) :
    ((Wide.sbb a b borrow).1.toNat : Int) - 2 ^ 64 * ((Wide.sbb a b borrow).2.toNat : Int) =
      (a.toNat : Int) - b.toNat - borrow.toNat := by
  have hv := wide_sbb_value a b borrow h
  omega

theorem adc_renditions : @adc .split = @adc .wide := by
  funext a b carry
  exact split_adc_eq a b carry

theorem mac_renditions : @mac .split = @mac .wide := by
  funext a b c carry
  exact split_mac_eq a b c carry

theorem sbb_renditions (a b borrow : Limb) (h : borrow.toNat ≤ 1 ∨ b = 0) :
    @sbb .split a b borrow = @sbb .wide a b borrow :=
  split_sbb_eq a b borrow h

/-! ## Sums and products that stay within their width -/

def sumWithin (x : Limb) : List Limb → Option Limb
  | [] => some x
  | y :: ys => if x.toNat + y.toNat < 2 ^ 64 then sumWithin (x + y) ys else none

def productWithin (x y : Limb) : Option Limb :=
  if x.toNat * y.toNat < 2 ^ 64 then some (x * y) else none

def doubleSumWithin (x y : DoubleLimb) : Option DoubleLimb :=
  if x.toNat + y.toNat < 2 ^ 128 then some (x + y) else none

def doubleProductWithin (x y : DoubleLimb) : Option DoubleLimb :=
  if x.toNat * y.toNat < 2 ^ 128 then some (x * y) else none

theorem sum_within_eq (x : Limb) (ys : List Limb)
    (h : x.toNat + (ys.map UInt64.toNat).sum < 2 ^ 64) :
    sumWithin x ys = some (ys.foldl (· + ·) x) := by
  induction ys generalizing x with
  | nil => rfl
  | cons y ys ih =>
    simp only [List.map_cons, List.sum_cons] at h
    have hxy : (x + y).toNat = x.toNat + y.toNat := by
      rw [UInt64.toNat_add]
      omega
    rw [sumWithin, if_pos (by omega), ih (x + y) (by omega), List.foldl_cons]

theorem product_within_halves (x y : Limb) (hx : x.toNat < 2 ^ 32) (hy : y.toNat < 2 ^ 32) :
    productWithin x y = some (x * y) := by
  have hp := half_product x y hx hy
  exact if_pos (by omega)

theorem double_sum_within_eq (x y : DoubleLimb) (h : x.toNat + y.toNat < 2 ^ 128) :
    doubleSumWithin x y = some (x + y) :=
  if_pos h

theorem double_product_within_limbs (a b : Limb) :
    doubleProductWithin (double a) (double b) = some (double a * double b) ∧
      (double a * double b).toNat + 2 * 2 ^ 64 ≤ 2 ^ 128 + 1 := by
  have hp : a.toNat * b.toNat ≤ (2 ^ 64 - 1) * (2 ^ 64 - 1) :=
    Nat.mul_le_mul (by have := a.toNat_lt; omega) (by have := b.toNat_lt; omega)
  constructor
  · apply if_pos
    rw [double_toNat, double_toNat]
    omega
  · rw [BitVec.toNat_mul, double_toNat, double_toNat]
    omega

/-! ## The checked forms -/

def Wide.adcWithin (a b carry : Limb) : Option (Limb × Limb) := do
  let t ← doubleSumWithin (double a) (double b)
  let t ← doubleSumWithin t (double carry)
  return (low t, high t)

def Wide.sbbWithin (a b borrow : Limb) : Option (Limb × Limb) := do
  let owed ← doubleSumWithin (double b) (double borrow)
  let t := double a - owed
  return (low t, high t &&& 1)

def Wide.macWithin (a b c carry : Limb) : Option (Limb × Limb) := do
  let t ← doubleProductWithin (double a) (double b)
  let t ← doubleSumWithin t (double c)
  let t ← doubleSumWithin t (double carry)
  return (low t, high t)

def Split.adcWithin (a b carry : Limb) : Option (Limb × Limb) := do
  let lo ← sumWithin (lowHalf a) [lowHalf b, lowHalf carry]
  let hi ← sumWithin (highHalf a) [highHalf b, highHalf carry, highHalf lo]
  return (join hi lo, highHalf hi)

def Split.macWithin (a b c carry : Limb) : Option (Limb × Limb) := do
  let p00 ← productWithin (lowHalf a) (lowHalf b)
  let p01 ← productWithin (lowHalf a) (highHalf b)
  let p10 ← productWithin (highHalf a) (lowHalf b)
  let p11 ← productWithin (highHalf a) (highHalf b)
  let mid ← sumWithin (highHalf p00) [lowHalf p01, lowHalf p10]
  let lo := lowHalf p00 ||| (lowHalf mid <<< 32)
  let hi ← sumWithin p11 [highHalf p01, highHalf p10, highHalf mid]
  let (lo, k1) ← Split.adcWithin lo c 0
  let (lo, k2) ← Split.adcWithin lo carry 0
  let hi ← sumWithin hi [k1, k2]
  return (lo, hi)

theorem wide_adc_within (a b carry : Limb) :
    Wide.adcWithin a b carry = some (Wide.adc a b carry) := by
  have ha := a.toNat_lt
  have hb := b.toNat_lt
  have hc := carry.toNat_lt
  have hab : (double a + double b).toNat = a.toNat + b.toNat := by
    rw [BitVec.toNat_add, double_toNat, double_toNat]
    omega
  have h1 := double_sum_within_eq (double a) (double b) (by simp only [double_toNat]; omega)
  have h2 := double_sum_within_eq (double a + double b) (double carry)
    (by rw [hab, double_toNat]; omega)
  simp only [Wide.adcWithin, h1, h2, Option.bind_eq_bind, Option.bind_some]
  rfl

theorem wide_sbb_within (a b borrow : Limb) :
    Wide.sbbWithin a b borrow = some (Wide.sbb a b borrow) := by
  have hb := b.toNat_lt
  have hc := borrow.toNat_lt
  rw [Wide.sbbWithin, double_sum_within_eq _ _ (by simp only [double_toNat]; omega)]
  rfl

theorem wide_mac_within (a b c carry : Limb) :
    Wide.macWithin a b c carry = some (Wide.mac a b c carry) := by
  have hc := c.toNat_lt
  have hd := carry.toNat_lt
  obtain ⟨hp, hroom⟩ := double_product_within_limbs a b
  have hpc : (double a * double b + double c).toNat = (double a * double b).toNat + c.toNat := by
    rw [BitVec.toNat_add, double_toNat]
    omega
  have h1 := double_sum_within_eq (double a * double b) (double c) (by rw [double_toNat]; omega)
  have h2 := double_sum_within_eq (double a * double b + double c) (double carry)
    (by rw [hpc, double_toNat]; omega)
  simp only [Wide.macWithin, hp, h1, h2, Option.bind_eq_bind, Option.bind_some]
  rfl

theorem split_adc_within (a b carry : Limb) :
    Split.adcWithin a b carry = some (Split.adc a b carry) := by
  have hl := sum_within_eq (lowHalf a) [lowHalf b, lowHalf carry] <| by
    have := lowHalf_lt a
    have := lowHalf_lt b
    have := lowHalf_lt carry
    simp only [List.map_cons, List.map_nil, List.sum_cons, List.sum_nil]
    omega
  have hh := fun lo => sum_within_eq (highHalf a) [highHalf b, highHalf carry, highHalf lo] <| by
    have := highHalf_lt a
    have := highHalf_lt b
    have := highHalf_lt carry
    have := highHalf_lt lo
    simp only [List.map_cons, List.map_nil, List.sum_cons, List.sum_nil]
    omega
  simp only [Split.adcWithin, hl, hh, Option.bind_eq_bind, Option.bind_some]
  rfl

/-- The columns of a product of halves hold what they are asked to: a product leaves room for two
carries, and the middle column carries two half-bases at most. -/
theorem split_columns_within (a b : Limb) :
    sumWithin (highHalf (lowHalf a * lowHalf b))
        [lowHalf (lowHalf a * highHalf b), lowHalf (highHalf a * lowHalf b)] =
        some (Split.middle a b) ∧
      sumWithin (highHalf a * highHalf b)
        [highHalf (lowHalf a * highHalf b), highHalf (highHalf a * lowHalf b),
          highHalf (Split.middle a b)] = some (Split.product a b).2 := by
  have h01 := (half_product _ _ (lowHalf_lt a) (highHalf_lt b)).2
  have h10 := (half_product _ _ (highHalf_lt a) (lowHalf_lt b)).2
  have h11 := (half_product _ _ (highHalf_lt a) (highHalf_lt b)).2
  have h00 := highHalf_lt (lowHalf a * lowHalf b)
  have hmid := middle_toNat a b
  rw [highHalf_toNat] at h00
  constructor
  · apply sum_within_eq
    simp only [List.map_cons, List.map_nil, List.sum_cons, List.sum_nil, highHalf_toNat,
      lowHalf_toNat (lowHalf a * highHalf b), lowHalf_toNat (highHalf a * lowHalf b)]
    omega
  · apply sum_within_eq
    simp only [List.map_cons, List.map_nil, List.sum_cons, List.sum_nil,
      highHalf_toNat (Split.middle a b), highHalf_toNat (lowHalf a * highHalf b),
      highHalf_toNat (highHalf a * lowHalf b)]
    omega

theorem split_mac_within (a b c carry : Limb) :
    Split.macWithin a b c carry = some (Split.mac a b c carry) := by
  have h00 := product_within_halves _ _ (lowHalf_lt a) (lowHalf_lt b)
  have h01 := product_within_halves _ _ (lowHalf_lt a) (highHalf_lt b)
  have h10 := product_within_halves _ _ (highHalf_lt a) (lowHalf_lt b)
  have h11 := product_within_halves _ _ (highHalf_lt a) (highHalf_lt b)
  obtain ⟨hmid, hhigh⟩ := split_columns_within a b
  have htop := sum_within_eq (Split.product a b).2
    [(Split.adc (Split.product a b).1 c 0).2,
      (Split.adc (Split.adc (Split.product a b).1 c 0).1 carry 0).2] <| by
    have h := split_mac_high a b c carry
    simp only [List.map_cons, List.map_nil, List.sum_cons, List.sum_nil]
    omega
  simp only [Split.macWithin, h00, h01, h10, h11, hmid, hhigh, split_adc_within,
    Option.bind_eq_bind, Option.bind_some]
  exact (congrArg (· >>= _) htop).trans rfl

/-! ## In the rendition in force -/

def adcWithin [rendition : Rendition] (a b carry : Limb) : Option (Limb × Limb) :=
  match rendition with
  | .wide => Wide.adcWithin a b carry
  | .split => Split.adcWithin a b carry

def sbbWithin [rendition : Rendition] (a b borrow : Limb) : Option (Limb × Limb) :=
  match rendition with
  | .wide => Wide.sbbWithin a b borrow
  | .split => some (Split.sbb a b borrow)

def macWithin [rendition : Rendition] (a b c carry : Limb) : Option (Limb × Limb) :=
  match rendition with
  | .wide => Wide.macWithin a b c carry
  | .split => Split.macWithin a b c carry

theorem adc_within [rendition : Rendition] (a b carry : Limb) :
    adcWithin a b carry = some (adc a b carry) := by
  cases rendition with
  | wide => exact wide_adc_within a b carry
  | split => exact split_adc_within a b carry

theorem sbb_within [rendition : Rendition] (a b borrow : Limb) :
    sbbWithin a b borrow = some (sbb a b borrow) := by
  cases rendition with
  | wide => exact wide_sbb_within a b borrow
  | split => rfl

theorem mac_within [rendition : Rendition] (a b c carry : Limb) :
    macWithin a b c carry = some (mac a b c carry) := by
  cases rendition with
  | wide => exact wide_mac_within a b c carry
  | split => exact split_mac_within a b c carry

/-- Two limbs carry a unit at most. -/
theorem adc_carry_le [Rendition] (a b : Limb) : (adc a b 0).2.toNat ≤ 1 := by
  have hv := adc_value a b 0
  have ha := a.toNat_lt
  have hb := b.toNat_lt
  rw [UInt64.toNat_zero] at hv
  omega

end Limb

end CryptoPrimitives
