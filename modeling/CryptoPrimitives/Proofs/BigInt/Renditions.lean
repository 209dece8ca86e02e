import CryptoPrimitives.Proofs.BigInt.Workspace
import CryptoPrimitives.Proofs.Units.Renditions

/-!
# Numbers in either rendition

An operation on numbers reaches the carry primitives only through operations on units, so its
result, its refusals and its ledger are the same in both renditions. Main statement: the renditions
are one function on the whole contract of each primitive, nothing but the differences wraps in
either, and no result on units or on numbers tells which is in force.
-/

set_option autoImplicit false

namespace CryptoPrimitives

/-! ## Arithmetic -/

namespace BigInt

theorem signed_sum_renditions : @writeSignedSum .split = @writeSignedSum .wide := by
  unfold writeSignedSum
  rw [Units.add_renditions, Units.sub_renditions]

theorem sum_renditions : @writeSum .split = @writeSum .wide := by
  unfold writeSum
  rw [signed_sum_renditions]

theorem difference_renditions : @writeDifference .split = @writeDifference .wide := by
  unfold writeDifference
  rw [signed_sum_renditions]

theorem product_renditions : @writeProduct .split = @writeProduct .wide := by
  unfold writeProduct
  rw [Units.mul_renditions]

theorem new_sum_renditions : @add .split = @add .wide := by
  unfold add
  rw [sum_renditions]

theorem new_difference_renditions : @sub .split = @sub .wide := by
  unfold sub
  rw [difference_renditions]

theorem new_product_renditions : @mul .split = @mul .wide := by
  unfold mul
  rw [product_renditions]

theorem new_square_renditions : @square .split = @square .wide := by
  unfold square
  rw [new_product_renditions]

theorem square_in_place_renditions : @squareInPlace .split = @squareInPlace .wide := by
  unfold squareInPlace
  rw [product_renditions]

theorem write_renditions : @RingOp.write .split = @RingOp.write .wide := by
  funext _ op
  cases op with
  | sum => exact congrFun sum_renditions _
  | difference => exact congrFun difference_renditions _
  | product => exact congrFun product_renditions _

theorem assign_renditions : @RingOp.assign .split = @RingOp.assign .wide := by
  funext _ op d t
  cases op with
  | sum => simp only [RingOp.assign, addInPlace, sum_renditions]
  | difference => simp only [RingOp.assign, subInPlace, difference_renditions]
  | product => simp only [RingOp.assign, mulInPlace, product_renditions]

theorem fresh_renditions : @RingOp.fresh .split = @RingOp.fresh .wide := by
  funext _ op s t
  rw [@RingOp.fresh_eq .split, @RingOp.fresh_eq .wide, write_renditions]

/-! ## Division, common divisors and inverses -/

theorem quotient_renditions : @divMod .split = @divMod .wide := by
  unfold divMod
  rw [Units.div_mod_renditions]

theorem residue_renditions : @emod .split = @emod .wide := by
  unfold emod
  rw [quotient_renditions, new_sum_renditions]

theorem euclid_renditions : @euclid .split = @euclid .wide := by
  funext _ steps a b
  induction steps generalizing a b with
  | zero => rfl
  | succ steps ih => simp only [euclid, euclidStep, quotient_renditions, ih]

theorem gcd_renditions : @gcd .split = @gcd .wide := by
  unfold gcd
  rw [euclid_renditions]

theorem bezout_renditions : @bezout .split = @bezout .wide := by
  funext _ steps e
  induction steps generalizing e with
  | zero => rfl
  | succ steps ih =>
    simp only [bezout, bezoutStep, quotient_renditions, new_product_renditions,
      new_difference_renditions, ih]

theorem inverse_renditions : @modInverse .split = @modInverse .wide := by
  unfold modInverse
  rw [residue_renditions, bezout_renditions]

end BigInt

/-! ## Numerals -/

namespace Radix

theorem push_renditions : @Accumulator.push .split = @Accumulator.push .wide := by
  unfold Accumulator.push
  rw [Units.scale_add_renditions]

theorem flush_renditions : @Accumulator.flush .split = @Accumulator.flush .wide := by
  unfold Accumulator.flush
  rw [Units.scale_add_renditions]

theorem read_digits_renditions : @readDigits .split = @readDigits .wide := by
  funext radix text pos a
  induction text generalizing pos a with
  | nil => rfl
  | cons ch rest ih => simp only [readDigits, push_renditions, ih]

theorem read_renditions : @read .split = @read .wide := by
  unfold read
  rw [read_digits_renditions, flush_renditions]

end Radix

theorem BigInt.parse_renditions : @BigInt.parse .split = @BigInt.parse .wide := by
  unfold BigInt.parse
  rw [Radix.read_renditions]

/-! ## Residues -/

namespace DivisionReducer

open BigInt (residue_renditions new_product_renditions)

theorem reduce_renditions : @reduce .split = @reduce .wide := by
  unfold reduce
  rw [residue_renditions]

theorem product_renditions : @mulMod .split = @mulMod .wide := by
  unfold mulMod
  rw [residue_renditions, new_product_renditions]

theorem loop_renditions : @powerLoop .split = @powerLoop .wide := by
  funext _ r b exponent bits acc
  induction bits generalizing acc with
  | zero => rfl
  | succ bits ih => simp only [powerLoop, product_renditions, ih]

theorem power_renditions : @powMod .split = @powMod .wide := by
  unfold powMod
  rw [reduce_renditions, residue_renditions, loop_renditions]

end DivisionReducer

namespace MontgomeryContext

open BigInt (residue_renditions)

theorem create_renditions : @create .split = @create .wide := by
  unfold create
  rw [residue_renditions]

theorem units_renditions : @mulUnits .split = @mulUnits .wide := by
  unfold mulUnits
  rw [Units.montgomery_mul_renditions]

theorem fitting_renditions : @mulFitting .split = @mulFitting .wide := by
  unfold mulFitting
  rw [units_renditions]

theorem product_renditions : @mul .split = @mul .wide := by
  unfold mul
  rw [fitting_renditions]

theorem square_renditions : @square .split = @square .wide := by
  unfold square
  rw [product_renditions]

theorem div_r_renditions : @divR .split = @divR .wide := by
  unfold divR
  rw [fitting_renditions]

theorem to_montgomery_renditions : @toMontgomery .split = @toMontgomery .wide := by
  unfold toMontgomery
  rw [residue_renditions, fitting_renditions]

theorem from_montgomery_renditions : @fromMontgomery .split = @fromMontgomery .wide := by
  unfold fromMontgomery
  rw [div_r_renditions]

theorem powers_renditions : @powers .split = @powers .wide := by
  funext c b count last
  induction count generalizing last with
  | zero => rfl
  | succ count ih => simp only [powers, units_renditions, ih]

theorem squarings_renditions : @squarings .split = @squarings .wide := by
  funext c count acc
  induction count generalizing acc with
  | zero => rfl
  | succ count ih => simp only [squarings, units_renditions, ih]

theorem windows_renditions : @windowLoop .split = @windowLoop .wide := by
  funext c table exponent width windows acc held
  induction windows generalizing acc held with
  | zero => rfl
  | succ windows ih => simp only [windowLoop, units_renditions, squarings_renditions, ih]

theorem power_renditions : @pow .split = @pow .wide := by
  unfold pow powerUnits
  rw [to_montgomery_renditions, powers_renditions, windows_renditions, div_r_renditions]

theorem reduce_renditions : @reduce .split = @reduce .wide := by
  unfold reduce
  rw [residue_renditions]

theorem residue_product_renditions : @mulMod .split = @mulMod .wide := by
  unfold mulMod
  rw [reduce_renditions, fitting_renditions]

end MontgomeryContext

namespace Reducer

theorem choice_renditions : @forModulus .split = @forModulus .wide := by
  unfold forModulus
  rw [MontgomeryContext.create_renditions]

theorem reduce_renditions : @reduce .split = @reduce .wide := by
  funext _ r x
  cases r with
  | division r => simp only [reduce, DivisionReducer.reduce_renditions]
  | montgomery c => simp only [reduce, MontgomeryContext.reduce_renditions]

theorem product_renditions : @mulMod .split = @mulMod .wide := by
  funext _ r a b
  cases r with
  | division r => simp only [mulMod, DivisionReducer.product_renditions]
  | montgomery c => simp only [mulMod, MontgomeryContext.residue_product_renditions]

theorem power_renditions : @powMod .split = @powMod .wide := by
  funext _ r b exponent
  cases r with
  | division r => simp only [powMod, DivisionReducer.power_renditions]
  | montgomery c => simp only [powMod, MontgomeryContext.powMod, MontgomeryContext.power_renditions]

end Reducer

theorem BigInt.power_renditions : @BigInt.powMod .split = @BigInt.powMod .wide := by
  unfold BigInt.powMod
  rw [Reducer.choice_renditions, Reducer.power_renditions]

/-! ## Every number -/

structure BigInt.Alike : Prop where
  write : @RingOp.write .split = @RingOp.write .wide
  assign : @RingOp.assign .split = @RingOp.assign .wide
  fresh : @RingOp.fresh .split = @RingOp.fresh .wide
  square : @BigInt.square .split = @BigInt.square .wide
  squareInPlace : @BigInt.squareInPlace .split = @BigInt.squareInPlace .wide
  divMod : @BigInt.divMod .split = @BigInt.divMod .wide
  emod : @BigInt.emod .split = @BigInt.emod .wide
  gcd : @BigInt.gcd .split = @BigInt.gcd .wide
  modInverse : @BigInt.modInverse .split = @BigInt.modInverse .wide
  powMod : @BigInt.powMod .split = @BigInt.powMod .wide
  parse : @BigInt.parse .split = @BigInt.parse .wide

theorem BigInt.alike : BigInt.Alike where
  write := write_renditions
  assign := assign_renditions
  fresh := fresh_renditions
  square := new_square_renditions
  squareInPlace := square_in_place_renditions
  divMod := quotient_renditions
  emod := residue_renditions
  gcd := gcd_renditions
  modInverse := inverse_renditions
  powMod := BigInt.power_renditions
  parse := BigInt.parse_renditions

structure Reducer.Alike : Prop where
  montgomery : @MontgomeryContext.create .split = @MontgomeryContext.create .wide
  forModulus : @Reducer.forModulus .split = @Reducer.forModulus .wide
  reduce : @Reducer.reduce .split = @Reducer.reduce .wide
  mulMod : @Reducer.mulMod .split = @Reducer.mulMod .wide
  powMod : @Reducer.powMod .split = @Reducer.powMod .wide
  toMontgomery : @MontgomeryContext.toMontgomery .split = @MontgomeryContext.toMontgomery .wide
  fromMontgomery :
    @MontgomeryContext.fromMontgomery .split = @MontgomeryContext.fromMontgomery .wide
  mul : @MontgomeryContext.mul .split = @MontgomeryContext.mul .wide
  square : @MontgomeryContext.square .split = @MontgomeryContext.square .wide

theorem Reducer.alike : Reducer.Alike where
  montgomery := MontgomeryContext.create_renditions
  forModulus := choice_renditions
  reduce := reduce_renditions
  mulMod := product_renditions
  powMod := power_renditions
  toMontgomery := MontgomeryContext.to_montgomery_renditions
  fromMontgomery := MontgomeryContext.from_montgomery_renditions
  mul := MontgomeryContext.product_renditions
  square := MontgomeryContext.square_renditions

namespace Workspace

variable {σ : Type}

/-- One call leaves the same numbers, reducers and source. -/
theorem step_renditions : @step σ .split = @step σ .wide := by
  have hn := BigInt.alike
  have hr := Reducer.alike
  funext _ fill w call
  cases call <;>
    simp only [step, hn.write, hn.assign, hn.fresh, hn.square, hn.squareInPlace, hn.divMod,
      hn.emod, hn.gcd, hn.modInverse, hn.powMod, hn.parse, hr.montgomery, hr.forModulus, hr.reduce,
      hr.mulMod, hr.powMod, hr.toMontgomery, hr.fromMontgomery, hr.mul, hr.square]

theorem run_renditions : @run σ .split = @run σ .wide := by
  unfold run
  rw [step_renditions]

end Workspace

/-! ## The two renditions -/

namespace Rendition

open Limb

/-- The renditions are one function where the contract of a primitive holds, with the exact value
beside each; their checked forms accept every operand, so only the differences wrap; and nothing
made of units or of numbers differs. -/
theorem interchangeable :
    (∀ a b carry : Limb,
      Split.adc a b carry = Wide.adc a b carry ∧
        (Wide.adc a b carry).1.toNat + 2 ^ 64 * (Wide.adc a b carry).2.toNat =
          a.toNat + b.toNat + carry.toNat) ∧
    (∀ a b c carry : Limb,
      Split.mac a b c carry = Wide.mac a b c carry ∧
        (Wide.mac a b c carry).1.toNat + 2 ^ 64 * (Wide.mac a b c carry).2.toNat =
          a.toNat * b.toNat + c.toNat + carry.toNat) ∧
    (∀ a b borrow : Limb, borrow.toNat ≤ 1 ∨ b = 0 →
      Split.sbb a b borrow = Wide.sbb a b borrow ∧
        ((Wide.sbb a b borrow).1.toNat : Int) - 2 ^ 64 * ((Wide.sbb a b borrow).2.toNat : Int) =
          (a.toNat : Int) - b.toNat - borrow.toNat) ∧
    (∀ a b carry : Limb,
      Split.adcWithin a b carry = some (Split.adc a b carry) ∧
        Wide.adcWithin a b carry = some (Wide.adc a b carry) ∧
        Wide.sbbWithin a b carry = some (Wide.sbb a b carry)) ∧
    (∀ a b c carry : Limb,
      Split.macWithin a b c carry = some (Split.mac a b c carry) ∧
        Wide.macWithin a b c carry = some (Wide.mac a b c carry)) ∧
    Units.Checked.Alike ∧ BigInt.Alike ∧ Reducer.Alike ∧
    ∀ {σ : Type} [Supply] (fill : Fill (StateM σ)) (calls : List Call) (w : Workspace σ),
      @Workspace.run σ .split _ fill calls w = @Workspace.run σ .wide _ fill calls w := by
  refine ⟨?sums, ?products, ?differences, ?sumsWithin, ?productsWithin, Units.Checked.alike,
    BigInt.alike, Reducer.alike, ?runs⟩
  case sums => exact fun a b carry => ⟨split_adc_eq a b carry, wide_adc_value a b carry⟩
  case products => exact fun a b c carry => ⟨split_mac_eq a b c carry, wide_mac_value a b c carry⟩
  case differences =>
    intro a b borrow h
    exact ⟨split_sbb_eq a b borrow h, wide_sbb_difference a b borrow h⟩
  case sumsWithin =>
    intro a b carry
    exact ⟨split_adc_within a b carry, wide_adc_within a b carry, wide_sbb_within a b carry⟩
  case productsWithin =>
    exact fun a b c carry => ⟨split_mac_within a b c carry, wide_mac_within a b c carry⟩
  case runs =>
    intro σ _ fill calls w
    rw [Workspace.run_renditions]

/-- A whole unit through the borrow, beside nothing: two halves are owed at once. -/
theorem full_unit_interchangeable :
    ((0xffffffffffffffff : Limb).toNat ≤ 1 ∨ (0 : Limb) = 0) ∧
      Split.sbb 5 0 0xffffffffffffffff = Wide.sbb 5 0 0xffffffffffffffff ∧
      Split.sbb 5 0 0xffffffffffffffff = (6, 1) := by
  have hcontract : (0xffffffffffffffff : Limb).toNat ≤ 1 ∨ (0 : Limb) = 0 := .inr rfl
  exact ⟨hcontract, (interchangeable.2.2.1 5 0 0xffffffffffffffff hcontract).1, by decide⟩

end Rendition

end CryptoPrimitives
