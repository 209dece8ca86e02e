import CryptoPrimitives.Proofs.Limb.Renditions
import CryptoPrimitives.Proofs.Units.Sum
import CryptoPrimitives.Units.Checked
import CryptoPrimitives.Units.Montgomery

/-!
# Units in either rendition

No operation on units hands more than a unit to the borrow of a difference, unless it subtracts
nothing else. So each of them is one function in both renditions, refusals included.
-/

set_option autoImplicit false

namespace CryptoPrimitives.Units

open Limb (adc_renditions mac_renditions sbb_renditions)

/-! ## Sums and differences -/

theorem add_carry_renditions : @addCarry .split = @addCarry .wide := by
  funext s t carry
  induction s generalizing t carry with
  | nil => rfl
  | cons s ss ih =>
    cases t with
    | nil => rfl
    | cons t ts => simp only [addCarry, adc_renditions, ih]

theorem add_limb_renditions : @addLimb .split = @addLimb .wide := by
  funext s v
  induction s generalizing v with
  | nil => rfl
  | cons s ss ih => simp only [addLimb, adc_renditions, ih]

/-- A borrow of more than a unit never arises from one of less. -/
theorem sub_borrow_renditions (s t : Units) (borrow : Limb) (h : borrow.toNat ≤ 1) :
    @subBorrow .split s t borrow = @subBorrow .wide s t borrow := by
  induction s generalizing t borrow with
  | nil => rfl
  | cons s ss ih =>
    cases t with
    | nil => rfl
    | cons t ts =>
      have hle := @Limb.sbb_borrow_le .wide s t borrow (.inl h)
      simp only [subBorrow, sbb_renditions s t borrow (.inl h), ih ts _ hle]

/-- Here a whole limb is subtracted, but nothing is borrowed. -/
theorem sub_limb_renditions : @subLimb .split = @subLimb .wide := by
  funext s v
  induction s generalizing v with
  | nil => rfl
  | cons s ss ih => simp only [subLimb, sbb_renditions s v 0 (.inl (by decide)), ih]

theorem add_renditions : @add .split = @add .wide := by
  unfold add
  rw [add_carry_renditions, add_limb_renditions]

theorem sub_renditions : @sub .split = @sub .wide := by
  funext s t
  unfold sub
  rw [sub_borrow_renditions _ t 0 (by decide), sub_limb_renditions]

/-! ## Products -/

theorem mul_carry_renditions : @mulCarry .split = @mulCarry .wide := by
  funext s v carry
  induction s generalizing carry with
  | nil => rfl
  | cons s ss ih => simp only [mulCarry, mac_renditions, ih]

theorem add_mul_carry_renditions : @addMulCarry .split = @addMulCarry .wide := by
  funext r s v carry
  induction r generalizing s carry with
  | nil => rfl
  | cons r rs ih =>
    cases s with
    | nil => rfl
    | cons s ss => simp only [addMulCarry, mac_renditions, ih]

theorem mul_rows_renditions : @mulRows .split = @mulRows .wide := by
  funext t s window
  induction s generalizing window with
  | nil => rfl
  | cons s ss ih => simp only [mulRows, add_mul_carry_renditions, ih]

theorem mul_renditions : @mul .split = @mul .wide := by
  unfold mul
  rw [mul_rows_renditions]

theorem scale_add_renditions : @scaleAdd .split = @scaleAdd .wide := by
  unfold scaleAdd
  rw [mul_carry_renditions]

/-! ## Division -/

/-- The borrow of a multiplication with subtraction stays a bit, whatever the carry is. -/
theorem sub_mul_renditions (q : Limb) (ws vs : Units) (carry borrow : Limb)
    (h : borrow.toNat ≤ 1) :
    @subMul .split q ws vs carry borrow = @subMul .wide q ws vs carry borrow ∧
      (@subMul .wide q ws vs carry borrow).2.2.toNat ≤ 1 := by
  induction ws generalizing vs carry borrow with
  | nil => exact ⟨rfl, h⟩
  | cons w ws ih =>
    cases vs with
    | nil => exact ⟨rfl, h⟩
    | cons v vs =>
      have hle := @Limb.sbb_borrow_le .wide w (@Limb.mac .wide q v 0 carry).1 borrow (.inl h)
      obtain ⟨heq, hout⟩ := ih vs (@Limb.mac .wide q v 0 carry).2 _ hle
      simp only [subMul, mac_renditions, sbb_renditions w _ borrow (.inl h), heq]
      exact ⟨trivial, hout⟩

theorem quotient_limb_renditions : @quotientLimb .split = @quotientLimb .wide := by
  funext v window
  have h := fun q => sub_mul_renditions q (window.take v.length) v 0 0 (by decide)
  simp only [quotientLimb, (h _).1, sbb_renditions _ _ _ (.inl (h _).2), add_carry_renditions]

theorem long_divide_renditions : @longDivide .split = @longDivide .wide := by
  funext v us rem
  induction us with
  | nil => rfl
  | cons u us ih => simp only [longDivide, quotient_limb_renditions, ih]

theorem div_long_renditions : @divLong .split = @divLong .wide := by
  unfold divLong
  rw [long_divide_renditions]

theorem div_mod_renditions : @divMod .split = @divMod .wide := by
  unfold divMod
  rw [div_long_renditions]

/-! ## Montgomery products -/

theorem montgomery_rounds_renditions : @montgomeryRounds .split = @montgomeryRounds .wide := by
  unfold montgomeryRounds montgomeryRound
  rw [add_mul_carry_renditions, adc_renditions]

theorem montgomery_finish_renditions : @montgomeryFinish .split = @montgomeryFinish .wide := by
  funext n t
  have h := sub_borrow_renditions t.limbs n 0 (by decide)
  simp only [montgomeryFinish, h, sbb_renditions t.top 0 _ (.inr rfl)]

theorem montgomery_mul_renditions : @montgomeryMul .split = @montgomeryMul .wide := by
  unfold montgomeryMul
  rw [montgomery_rounds_renditions, montgomery_finish_renditions]

/-! ## With stated lengths -/

namespace Checked

structure Alike : Prop where
  add : @add .split = @add .wide
  sub : @sub .split = @sub .wide
  addOnto : @addOnto .split = @addOnto .wide
  subFrom : @subFrom .split = @subFrom .wide
  addLimb : @addLimb .split = @addLimb .wide
  subLimb : @subLimb .split = @subLimb .wide
  mulLimb : @mulLimb .split = @mulLimb .wide
  addMulLimb : @addMulLimb .split = @addMulLimb .wide
  mulLengths : @mulLengths .split = @mulLengths .wide
  mul : @mul .split = @mul .wide

theorem alike : Alike := by
  have hsub := fun s t => sub_borrow_renditions s t 0 (by decide)
  have hmul : @mulLengths .split = @mulLengths .wide := by
    unfold mulLengths
    rw [mul_renditions]
  constructor
  case add => unfold add; rw [add_carry_renditions]
  case sub => unfold sub; simp only [hsub]
  case addOnto => unfold addOnto; rw [add_carry_renditions]
  case subFrom => unfold subFrom; simp only [hsub]
  case addLimb => unfold addLimb; rw [add_limb_renditions]
  case subLimb => unfold subLimb; rw [sub_limb_renditions]
  case mulLimb => unfold mulLimb; rw [mul_carry_renditions]
  case addMulLimb => unfold addMulLimb; rw [add_mul_carry_renditions]
  case mulLengths => exact hmul
  case mul => unfold mul; rw [hmul]

end Checked

end CryptoPrimitives.Units
