import CryptoPrimitives.Proofs.Units.Montgomery
import Mathlib.Data.Nat.Find
import Mathlib.Data.Nat.ModEq
import Mathlib.Data.Nat.Prime.Basic

/-!
# How many bits of an inverse are correct

The low bits of a limb that agree with the inverse of an odd limb are counted by the power of two to
which the product is 1. Every pass of the iteration doubles that count, whatever limb it starts
from, until all 64 bits are correct; so the limb that the passes end in is the only one there is.
-/

set_option autoImplicit false

namespace CryptoPrimitives.Limb

instance (bits : Nat) (n0 x : Limb) : Decidable (InverseTo bits n0 x) :=
  inferInstanceAs (Decidable ((2 : Int) ^ bits ∣ n0.toNat * x.toNat - 1))

def correctBits (n0 x : Limb) : Nat := Nat.findGreatest (fun bits => InverseTo bits n0 x) 64

def afterPasses (n0 : Limb) (passes : Nat) : Limb :=
  (List.range passes).foldl (fun x _ => inverseStep n0 x) n0

variable {n0 x y : Limb}

/-! ## Counting correct bits -/

theorem InverseTo.mono {bits fewer : Nat} (h : InverseTo bits n0 x) (hle : fewer ≤ bits) :
    InverseTo fewer n0 x :=
  (pow_dvd_pow 2 hle).trans h

theorem inverseTo_zero (n0 x : Limb) : InverseTo 0 n0 x := by
  rw [InverseTo, pow_zero]
  exact one_dvd _

theorem inverseTo_correctBits (n0 x : Limb) : InverseTo (correctBits n0 x) n0 x :=
  Nat.findGreatest_spec (P := fun bits => InverseTo bits n0 x) (Nat.zero_le 64)
    (inverseTo_zero n0 x)

theorem le_correctBits_iff {bits : Nat} (hbits : bits ≤ 64) :
    bits ≤ correctBits n0 x ↔ InverseTo bits n0 x :=
  ⟨(inverseTo_correctBits n0 x).mono, fun h => Nat.le_findGreatest hbits h⟩

/-- A pass doubles the correct bits of any limb, up to the width of a limb. -/
theorem correctBits_step (n0 x : Limb) :
    min (2 * correctBits n0 x) 64 ≤ correctBits n0 (inverseStep n0 x) := by
  rw [le_correctBits_iff (Nat.min_le_right _ _)]
  exact inverseStep_doubles n0 x _ _ (inverseTo_correctBits n0 x) (Nat.min_le_left _ _)
    (Nat.min_le_right _ _)

theorem correctBits_afterPasses (h : n0.toNat % 2 = 1) (passes : Nat) :
    min (3 * 2 ^ passes) 64 ≤ correctBits n0 (afterPasses n0 passes) :=
  (le_correctBits_iff (Nat.min_le_right _ _)).mpr (newton_inverse n0 h passes)

/-! ## Which bits they are -/

/-- The limbs that are inverse to some bits are those that agree there with a full inverse. -/
theorem inverseTo_iff_modEq (hy : InverseTo 64 n0 y) {bits : Nat} (hbits : bits ≤ 64) :
    InverseTo bits n0 x ↔ x.toNat ≡ y.toNat [MOD 2 ^ bits] := by
  obtain ⟨e, he⟩ := hy.mono hbits
  rw [← Int.natCast_modEq_iff, Int.modEq_iff_dvd, InverseTo]
  push_cast
  constructor
  · rintro ⟨d, hd⟩
    refine ⟨x.toNat * e - y.toNat * d, ?_⟩
    linear_combination x.toNat * he - y.toNat * hd
  · rintro ⟨d, hd⟩
    refine ⟨e - n0.toNat * d, ?_⟩
    linear_combination he - n0.toNat * hd

theorem modEq_iff_testBit (a b bits : Nat) :
    a ≡ b [MOD 2 ^ bits] ↔ ∀ i < bits, a.testBit i = b.testBit i := by
  constructor
  · intro h i hi
    have hbit := congrArg (fun n => n.testBit i) h
    simpa [Nat.testBit_mod_two_pow, hi] using hbit
  · intro h
    apply Nat.eq_of_testBit_eq
    intro i
    rw [Nat.testBit_mod_two_pow, Nat.testBit_mod_two_pow]
    by_cases hi : i < bits
    · rw [h i hi]
    · simp [hi]

/-- The correct bits of a limb are the low ones in which it agrees with a full inverse. -/
theorem le_correctBits_iff_agree (hy : InverseTo 64 n0 y) {bits : Nat} (hbits : bits ≤ 64) :
    bits ≤ correctBits n0 x ↔ ∀ i < bits, x.toNat.testBit i = y.toNat.testBit i := by
  rw [le_correctBits_iff hbits, inverseTo_iff_modEq hy hbits, modEq_iff_testBit]

/-! ## The only inverse -/

theorem odd_coprime_base (h : n0.toNat % 2 = 1) : Nat.gcd (2 ^ 64) n0.toNat = 1 :=
  Nat.Coprime.pow_left 64 (Nat.coprime_two_left.mpr (Nat.odd_iff.mpr h))

theorem eq_negInverse_iff (h : n0.toNat % 2 = 1) :
    (n0.toNat : Int) * x.toNat ≡ -1 [ZMOD 2 ^ 64] ↔ x = negInverse n0 := by
  have hneg : ∀ z : Limb, (n0.toNat : Int) * z.toNat ≡ -1 [ZMOD 2 ^ 64] ↔
      n0.toNat * z.toNat + 1 ≡ 0 [MOD 2 ^ 64] := by
    intro z
    rw [← Int.natCast_modEq_iff, Int.modEq_iff_dvd, Int.modEq_iff_dvd]
    push_cast
    ring_nf
  have hvalue : n0.toNat * (negInverse n0).toNat + 1 ≡ 0 [MOD 2 ^ 64] := negInverse_value n0 h
  rw [hneg]
  constructor
  · intro hx
    have hsame := Nat.ModEq.add_right_cancel' 1 (hx.trans hvalue.symm)
    have hmod := Nat.ModEq.cancel_left_of_coprime (odd_coprime_base h) hsame
    exact UInt64.toNat_inj.mp (Nat.ModEq.eq_of_lt_of_lt hmod x.toNat_lt (negInverse n0).toNat_lt)
  · rintro rfl
    exact hvalue

theorem inverseTo_full_iff : InverseTo 64 n0 y ↔ n0 * y = 1 := by
  rw [InverseTo, ← UInt64.toNat_inj, UInt64.toNat_mul, UInt64.toNat_one, ← Int.modEq_iff_dvd]
  constructor
  · intro h
    have hnat : 1 ≡ n0.toNat * y.toNat [MOD 2 ^ 64] := by
      rw [← Int.natCast_modEq_iff]
      exact_mod_cast h
    exact hnat.symm
  · intro h
    have hnat : n0.toNat * y.toNat ≡ 1 [MOD 2 ^ 64] := h
    have hint := Int.natCast_modEq_iff.mpr hnat
    exact_mod_cast hint.symm

/-- Of all limbs one alone makes, with an odd limb, a product that is one below zero, and it is the
one that six passes lead to. The iteration starts with three correct bits. A pass at least doubles
them, from whatever limb it goes on, until all 64 are correct. Correct are the low bits in which a
limb agrees with the inverse, that is with the limb that makes a product of one. -/
theorem negInverse_by_doubling (n0 : Limb) (h : n0.toNat % 2 = 1) :
    (∀ x : Limb, (n0.toNat : Int) * x.toNat ≡ -1 [ZMOD 2 ^ 64] ↔ x = negInverse n0) ∧
    negInverse n0 = 0 - afterPasses n0 6 ∧
    3 ≤ correctBits n0 (afterPasses n0 0) ∧
    (∀ x, min (2 * correctBits n0 x) 64 ≤ correctBits n0 (inverseStep n0 x)) ∧
    (∀ passes, afterPasses n0 (passes + 1) = inverseStep n0 (afterPasses n0 passes) ∧
      min (3 * 2 ^ passes) 64 ≤ correctBits n0 (afterPasses n0 passes)) ∧
    ∀ x y : Limb, n0 * y = 1 → ∀ bits ≤ 64,
      bits ≤ correctBits n0 x ↔ ∀ i < bits, x.toNat.testBit i = y.toNat.testBit i := by
  refine ⟨fun x => eq_negInverse_iff h, rfl, ?_, correctBits_step n0, fun passes => ⟨?_, ?_⟩,
    fun x y hy bits hbits => ?_⟩
  · exact correctBits_afterPasses h 0
  · rw [afterPasses, List.range_succ, List.foldl_append]
    rfl
  · exact correctBits_afterPasses h passes
  · exact le_correctBits_iff_agree (inverseTo_full_iff.mpr hy) hbits

/-- An odd limb whose own square is 1 to three bits and no further. -/
theorem negInverse_by_doubling_three :
    (3 : Limb).toNat % 2 = 1 ∧
    ((3 : Limb).toNat : Int) * (0x5555555555555555 : Limb).toNat ≡ -1 [ZMOD 2 ^ 64] ∧
    48 ≤ correctBits 3 (afterPasses 3 4) ∧
    (3 ≤ correctBits 3 3 ↔
      ∀ i < 3, (3 : Limb).toNat.testBit i = (0xaaaaaaaaaaaaaaab : Limb).toNat.testBit i) := by
  obtain ⟨hunique, -, -, -, hpasses, hbits⟩ := negInverse_by_doubling 3 (by decide)
  refine ⟨by decide, (hunique 0x5555555555555555).mpr (by decide), (hpasses 4).2, ?_⟩
  exact hbits 3 0xaaaaaaaaaaaaaaab (by decide) 3 (by decide)

end CryptoPrimitives.Limb
