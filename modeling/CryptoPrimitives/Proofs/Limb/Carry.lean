import CryptoPrimitives.Limb.Basic
import Mathlib.Tactic.Ring

/-!
# Values of the carry primitives

Each primitive returns a limb and a carry which together stand for the exact result. The equations
are proved for the double-width rendition and for the one in halves, so they hold in whichever is
in force, and no proof above this one looks at a rendition again.
-/

set_option autoImplicit false

namespace CryptoPrimitives.Limb

/-! ## Over a double-width accumulator -/

theorem base_eq : base = 2 ^ 64 := rfl

@[simp] theorem double_toNat (a : Limb) : (double a).toNat = a.toNat := by
  have h := a.toNat_lt
  simp only [double, BitVec.toNat_setWidth, UInt64.toNat_toBitVec]
  omega

@[simp] theorem low_toNat (t : DoubleLimb) : (low t).toNat = t.toNat % 2 ^ 64 := by
  simp [low]

@[simp] theorem high_toNat (t : DoubleLimb) : (high t).toNat = t.toNat / 2 ^ 64 := by
  have h := t.isLt
  simp only [high, UInt64.toNat_ofBitVec, BitVec.toNat_setWidth, BitVec.toNat_ushiftRight,
    Nat.shiftRight_eq_div_pow]
  omega

theorem low_add_high (t : DoubleLimb) : (low t).toNat + 2 ^ 64 * (high t).toNat = t.toNat := by
  simp only [low_toNat, high_toNat]
  omega

theorem wide_adc_value (a b carry : Limb) :
    (Wide.adc a b carry).1.toNat + 2 ^ 64 * (Wide.adc a b carry).2.toNat =
      a.toNat + b.toNat + carry.toNat := by
  have ha := a.toNat_lt
  have hb := b.toNat_lt
  have hc := carry.toNat_lt
  rw [Wide.adc, low_add_high]
  simp only [BitVec.toNat_add, double_toNat]
  omega

theorem and_one_toNat (x : Limb) : (x &&& 1).toNat = x.toNat % 2 := by
  simp [Nat.and_one_is_mod]

theorem wide_sbb_value (a b borrow : Limb) (h : borrow.toNat ≤ 1 ∨ b = 0) :
    (Wide.sbb a b borrow).1.toNat + b.toNat + borrow.toNat =
      a.toNat + 2 ^ 64 * (Wide.sbb a b borrow).2.toNat := by
  have ha := a.toNat_lt
  have hb := b.toNat_lt
  have hc := borrow.toNat_lt
  have hz : borrow.toNat ≤ 1 ∨ b.toNat = 0 := h.imp_right (by rintro rfl; rfl)
  simp only [Wide.sbb, and_one_toNat, low_toNat, high_toNat, BitVec.toNat_sub, BitVec.toNat_add,
    double_toNat]
  omega

theorem wide_mac_value (a b c carry : Limb) :
    (Wide.mac a b c carry).1.toNat + 2 ^ 64 * (Wide.mac a b c carry).2.toNat =
      a.toNat * b.toNat + c.toNat + carry.toNat := by
  have ha := a.toNat_lt
  have hb := b.toNat_lt
  have hc := c.toNat_lt
  have hd := carry.toNat_lt
  have hp : a.toNat * b.toNat ≤ (2 ^ 64 - 1) * (2 ^ 64 - 1) :=
    Nat.mul_le_mul (by omega) (by omega)
  rw [Wide.mac, low_add_high]
  simp only [BitVec.toNat_add, BitVec.toNat_mul, double_toNat]
  omega

/-- Two limbs by one, the high one below the divisor, so that the quotient is a limb. -/
theorem div_double_value (hi lo d : Limb) (h : hi.toNat < d.toNat) :
    (divDouble hi lo d).1.toNat * d.toNat + (divDouble hi lo d).2.toNat =
        2 ^ 64 * hi.toNat + lo.toNat ∧
      (divDouble hi lo d).2.toNat < d.toNat := by
  have hh := hi.toNat_lt
  have hl := lo.toNat_lt
  have hd := d.toNat_lt
  have hnum : ((double hi <<< 64) ||| double lo).toNat = 2 ^ 64 * hi.toNat + lo.toNat := by
    have hs : hi.toNat <<< 64 % 2 ^ 128 = 2 ^ 64 * hi.toNat := by
      rw [Nat.shiftLeft_eq]
      omega
    rw [BitVec.toNat_or, BitVec.toNat_shiftLeft, double_toNat, double_toNat, hs,
      ← Nat.two_pow_add_eq_or_of_lt hl]
  have hq : (2 ^ 64 * hi.toNat + lo.toNat) / d.toNat < 2 ^ 64 := by
    rw [Nat.div_lt_iff_lt_mul (by omega)]
    calc 2 ^ 64 * hi.toNat + lo.toNat < 2 ^ 64 * (hi.toNat + 1) := by omega
      _ ≤ 2 ^ 64 * d.toNat := Nat.mul_le_mul_left _ h
  have hr : (2 ^ 64 * hi.toNat + lo.toNat) % d.toNat < d.toNat := Nat.mod_lt _ (by omega)
  simp only [divDouble, low_toNat, BitVec.toNat_udiv, BitVec.toNat_umod, hnum, double_toNat]
  rw [Nat.mod_eq_of_lt hq, Nat.mod_eq_of_lt (by omega), Nat.mul_comm]
  exact ⟨Nat.div_add_mod _ _, hr⟩

/-! ## In halves -/

@[simp] theorem lowHalf_toNat (a : Limb) : (lowHalf a).toNat = a.toNat % 2 ^ 32 := by
  simp only [lowHalf, UInt64.toNat_and]
  exact Nat.and_two_pow_sub_one_eq_mod a.toNat 32

@[simp] theorem highHalf_toNat (a : Limb) : (highHalf a).toNat = a.toNat / 2 ^ 32 := by
  simp [highHalf, Nat.shiftRight_eq_div_pow]

theorem lowHalf_lt (a : Limb) : (lowHalf a).toNat < 2 ^ 32 := by
  rw [lowHalf_toNat]
  omega

theorem highHalf_lt (a : Limb) : (highHalf a).toNat < 2 ^ 32 := by
  have h := a.toNat_lt
  rw [highHalf_toNat]
  omega

theorem or_shifted_toNat (hi lo : Limb) (hl : lo.toNat < 2 ^ 32) :
    ((hi <<< 32) ||| lo).toNat = 2 ^ 32 * (hi.toNat % 2 ^ 32) + lo.toNat := by
  have hs : hi.toNat <<< 32 % 2 ^ 64 = 2 ^ 32 * (hi.toNat % 2 ^ 32) := by
    simp only [Nat.shiftLeft_eq]
    omega
  simp only [UInt64.toNat_or, UInt64.toNat_shiftLeft]
  rw [show (32 : Limb).toNat % 64 = 32 from rfl, hs, ← Nat.two_pow_add_eq_or_of_lt hl]

theorem join_toNat (hi lo : Limb) :
    (join hi lo).toNat = 2 ^ 32 * (hi.toNat % 2 ^ 32) + lo.toNat % 2 ^ 32 := by
  rw [join, or_shifted_toNat hi _ (lowHalf_lt lo), lowHalf_toNat]

theorem split_adc_value (a b carry : Limb) :
    (Split.adc a b carry).1.toNat + 2 ^ 64 * (Split.adc a b carry).2.toNat =
      a.toNat + b.toNat + carry.toNat := by
  have ha := a.toNat_lt
  have hb := b.toNat_lt
  have hc := carry.toNat_lt
  simp only [Split.adc, join_toNat, highHalf_toNat, UInt64.toNat_add, lowHalf_toNat]
  omega

theorem sub_sub_toNat (x y z : Limb) (h : y.toNat + z.toNat ≤ 2 ^ 64) :
    (x - y - z).toNat =
      if y.toNat + z.toNat ≤ x.toNat then x.toNat - (y.toNat + z.toNat)
      else 2 ^ 64 + x.toNat - (y.toNat + z.toNat) := by
  have hx := x.toNat_lt
  rw [UInt64.toNat_sub, UInt64.toNat_sub]
  split <;> omega

theorem arithmetic_shift_toNat (x : Limb) :
    (x.toInt64 >>> 32).toUInt64.toNat =
      if x.toNat < 2 ^ 63 then x.toNat / 2 ^ 32 else 2 ^ 64 - 2 ^ 32 + x.toNat / 2 ^ 32 := by
  have h : (x.toInt64 >>> 32).toUInt64.toNat = (x.toBitVec.sshiftRight 32).toNat := rfl
  have hx := x.toNat_lt
  have hm : x.toBitVec.msb = decide (2 ^ 63 ≤ x.toNat) := by
    rw [BitVec.msb_eq_decide]
    rfl
  rw [h, BitVec.toNat_sshiftRight, hm, UInt64.toNat_toBitVec, Nat.shiftRight_eq_div_pow,
    Nat.shiftRight_eq_div_pow]
  by_cases hb : x.toNat < 2 ^ 63
  · simp only [hb, if_true, decide_eq_true_eq, show ¬2 ^ 63 ≤ x.toNat by omega, if_false]
  · simp only [hb, if_false, decide_eq_true_eq, show 2 ^ 63 ≤ x.toNat by omega, if_true]
    omega

/-- The negated arithmetic shift of a wrapped half-difference is the number of half-bases that it
owes: none, one or two. -/
theorem half_borrow (x y z : Limb) (hx : x.toNat < 2 ^ 32) (hy : y.toNat < 2 ^ 32)
    (hz : z.toNat < 2 ^ 32) :
    (x - y - z).toNat % 2 ^ 32 + y.toNat + z.toNat =
      x.toNat + 2 ^ 32 * (-((x - y - z).toInt64 >>> 32)).toUInt64.toNat := by
  have hd := sub_sub_toNat x y z (by omega)
  have hs := arithmetic_shift_toNat (x - y - z)
  have hn : (-((x - y - z).toInt64 >>> 32)).toUInt64.toNat =
      (2 ^ 64 - ((x - y - z).toInt64 >>> 32).toUInt64.toNat) % 2 ^ 64 := by
    rw [Int64.toUInt64_neg, ← UInt64.zero_sub, UInt64.toNat_sub]
    rfl
  rw [hn, hs]
  by_cases hc : y.toNat + z.toNat ≤ x.toNat
  · rw [if_pos hc] at hd
    rw [if_pos (by omega)]
    omega
  · rw [if_neg hc] at hd
    rw [if_neg (by omega)]
    omega

theorem shift_63_toNat (x : Limb) : (x >>> 63).toNat = x.toNat / 2 ^ 63 := by
  simp [Nat.shiftRight_eq_div_pow]

theorem split_sbb_value (a b borrow : Limb) (h : borrow.toNat ≤ 1 ∨ b = 0) :
    (Split.sbb a b borrow).1.toNat + b.toNat + borrow.toNat =
      a.toNat + 2 ^ 64 * (Split.sbb a b borrow).2.toNat := by
  have ha := a.toNat_lt
  have hb := b.toNat_lt
  have hc := borrow.toNat_lt
  have hz : borrow.toNat ≤ 1 ∨ b.toNat = 0 := h.imp_right (by rintro rfl; rfl)
  have hlow := half_borrow (lowHalf a) (lowHalf b) (lowHalf borrow)
    (lowHalf_lt a) (lowHalf_lt b) (lowHalf_lt borrow)
  have hhigh := sub_sub_toNat (highHalf a) (highHalf b) (highHalf borrow)
    (by simp only [highHalf_toNat]; omega)
  simp only [Split.sbb, join_toNat, shift_63_toNat]
  generalize lowHalf a - lowHalf b - lowHalf borrow = lo at *
  generalize (-(lo.toInt64 >>> 32)).toUInt64 = k at *
  simp only [lowHalf_toNat] at hlow
  simp only [highHalf_toNat] at hhigh
  have hk : k.toNat ≤ 2 := by omega
  rw [UInt64.toNat_sub]
  split at hhigh <;> rw [hhigh] <;> omega

/-- A product of half-limbs leaves room for two more half-limbs in its limb. -/
theorem half_product (x y : Limb) (hx : x.toNat < 2 ^ 32) (hy : y.toNat < 2 ^ 32) :
    (x * y).toNat = x.toNat * y.toNat ∧ (x * y).toNat + 2 * 2 ^ 32 ≤ 2 ^ 64 + 1 := by
  have hp : x.toNat * y.toNat ≤ (2 ^ 32 - 1) * (2 ^ 32 - 1) :=
    Nat.mul_le_mul (by omega) (by omega)
  have he : (x * y).toNat = x.toNat * y.toNat := by
    rw [UInt64.toNat_mul]
    omega
  exact ⟨he, by omega⟩

theorem half_products (a b : Limb) :
    a.toNat * b.toNat = (lowHalf a * lowHalf b).toNat +
      2 ^ 32 * ((lowHalf a * highHalf b).toNat + (highHalf a * lowHalf b).toNat) +
      2 ^ 64 * (highHalf a * highHalf b).toNat := by
  have ha : a.toNat = 2 ^ 32 * (highHalf a).toNat + (lowHalf a).toNat := by
    simp only [highHalf_toNat, lowHalf_toNat]
    omega
  have hb : b.toNat = 2 ^ 32 * (highHalf b).toNat + (lowHalf b).toNat := by
    simp only [highHalf_toNat, lowHalf_toNat]
    omega
  rw [(half_product _ _ (lowHalf_lt a) (lowHalf_lt b)).1,
    (half_product _ _ (lowHalf_lt a) (highHalf_lt b)).1,
    (half_product _ _ (highHalf_lt a) (lowHalf_lt b)).1,
    (half_product _ _ (highHalf_lt a) (highHalf_lt b)).1]
  calc a.toNat * b.toNat = _ := by rw [ha, hb]
    _ = _ := by ring

def Split.middle (a b : Limb) : Limb :=
  highHalf (lowHalf a * lowHalf b) + lowHalf (lowHalf a * highHalf b) +
    lowHalf (highHalf a * lowHalf b)

def Split.product (a b : Limb) : Limb × Limb :=
  (lowHalf (lowHalf a * lowHalf b) ||| (lowHalf (Split.middle a b) <<< 32),
    highHalf a * highHalf b + highHalf (lowHalf a * highHalf b) +
      highHalf (highHalf a * lowHalf b) + highHalf (Split.middle a b))

theorem split_mac_eq_product (a b c carry : Limb) :
    Split.mac a b c carry =
      ((Split.adc (Split.adc (Split.product a b).1 c 0).1 carry 0).1,
        (Split.product a b).2 + (Split.adc (Split.product a b).1 c 0).2 +
          (Split.adc (Split.adc (Split.product a b).1 c 0).1 carry 0).2) :=
  rfl

theorem middle_toNat (a b : Limb) :
    (Split.middle a b).toNat = (lowHalf a * lowHalf b).toNat / 2 ^ 32 +
      (lowHalf a * highHalf b).toNat % 2 ^ 32 + (highHalf a * lowHalf b).toNat % 2 ^ 32 := by
  have h := (lowHalf a * lowHalf b).toNat_lt
  simp only [Split.middle, UInt64.toNat_add, lowHalf_toNat, highHalf_toNat]
  omega

theorem split_product_value (a b : Limb) :
    (Split.product a b).1.toNat + 2 ^ 64 * (Split.product a b).2.toNat = a.toNat * b.toNat := by
  have hprod := half_products a b
  have hab : a.toNat * b.toNat ≤ (2 ^ 64 - 1) * (2 ^ 64 - 1) :=
    Nat.mul_le_mul (by have := a.toNat_lt; omega) (by have := b.toNat_lt; omega)
  have h01 := (half_product _ _ (lowHalf_lt a) (highHalf_lt b)).2
  have h10 := (half_product _ _ (highHalf_lt a) (lowHalf_lt b)).2
  have hmid := middle_toNat a b
  simp only [Split.product]
  generalize Split.middle a b = mid at *
  generalize lowHalf a * lowHalf b = p00 at *
  generalize lowHalf a * highHalf b = p01 at *
  generalize highHalf a * lowHalf b = p10 at *
  generalize highHalf a * highHalf b = p11 at *
  have hlo : (lowHalf p00 ||| (lowHalf mid <<< 32)).toNat =
      p00.toNat % 2 ^ 32 + 2 ^ 32 * (mid.toNat % 2 ^ 32) := by
    rw [UInt64.or_comm, or_shifted_toNat _ _ (lowHalf_lt p00), lowHalf_toNat, lowHalf_toNat]
    omega
  rw [hlo]
  simp only [UInt64.toNat_add, highHalf_toNat]
  omega

/-- Neither of the two carries makes the high limb of a product overflow. -/
theorem split_mac_high (a b c carry : Limb) :
    (Split.product a b).2.toNat + (Split.adc (Split.product a b).1 c 0).2.toNat +
      (Split.adc (Split.adc (Split.product a b).1 c 0).1 carry 0).2.toNat < 2 ^ 64 := by
  have hab : a.toNat * b.toNat ≤ (2 ^ 64 - 1) * (2 ^ 64 - 1) :=
    Nat.mul_le_mul (by have := a.toNat_lt; omega) (by have := b.toNat_lt; omega)
  have hp := split_product_value a b
  have hk1 := split_adc_value (Split.product a b).1 c 0
  have hk2 := split_adc_value (Split.adc (Split.product a b).1 c 0).1 carry 0
  have hz : (0 : Limb).toNat = 0 := rfl
  have hc := c.toNat_lt
  have hd := carry.toNat_lt
  omega

theorem split_mac_value (a b c carry : Limb) :
    (Split.mac a b c carry).1.toNat + 2 ^ 64 * (Split.mac a b c carry).2.toNat =
      a.toNat * b.toNat + c.toNat + carry.toNat := by
  have hp := split_product_value a b
  have hk1 := split_adc_value (Split.product a b).1 c 0
  have hk2 := split_adc_value (Split.adc (Split.product a b).1 c 0).1 carry 0
  have hhigh := split_mac_high a b c carry
  have hz : (0 : Limb).toNat = 0 := rfl
  rw [split_mac_eq_product]
  simp only [UInt64.toNat_add]
  omega

/-! ## In the rendition in force -/

variable [rendition : Rendition]

theorem adc_value (a b carry : Limb) :
    (adc a b carry).1.toNat + 2 ^ 64 * (adc a b carry).2.toNat =
      a.toNat + b.toNat + carry.toNat := by
  cases rendition with
  | wide => exact wide_adc_value a b carry
  | split => exact split_adc_value a b carry

theorem sbb_value (a b borrow : Limb) (h : borrow.toNat ≤ 1 ∨ b = 0) :
    (sbb a b borrow).1.toNat + b.toNat + borrow.toNat =
      a.toNat + 2 ^ 64 * (sbb a b borrow).2.toNat := by
  cases rendition with
  | wide => exact wide_sbb_value a b borrow h
  | split => exact split_sbb_value a b borrow h

theorem mac_value (a b c carry : Limb) :
    (mac a b c carry).1.toNat + 2 ^ 64 * (mac a b c carry).2.toNat =
      a.toNat * b.toNat + c.toNat + carry.toNat := by
  cases rendition with
  | wide => exact wide_mac_value a b c carry
  | split => exact split_mac_value a b c carry

theorem sbb_borrow_le (a b borrow : Limb) (h : borrow.toNat ≤ 1 ∨ b = 0) :
    (sbb a b borrow).2.toNat ≤ 1 := by
  have hv := sbb_value a b borrow h
  have hr := (sbb a b borrow).1.toNat_lt
  have hb := b.toNat_lt
  have hc := borrow.toNat_lt
  have hz : borrow.toNat ≤ 1 ∨ b.toNat = 0 := h.imp_right (by rintro rfl; rfl)
  omega

end CryptoPrimitives.Limb
