import CryptoPrimitives.BigInt.Shift
import CryptoPrimitives.Proofs.BigInt.Canonical
import CryptoPrimitives.Proofs.Limb.Carry
import CryptoPrimitives.Proofs.Units.Shift

/-!
# Shifts and bits of numbers

A shift by whole limbs is zero limbs below, the rest is the shift of units. A bit of a number is a
bit of its magnitude.
-/

set_option autoImplicit false

namespace CryptoPrimitives.BigInt

variable {x : BigInt}

theorem ofLimb_represents (v : Limb) : Represents (ofLimb v).val v.toNat := by
  have hw := write_written (empty_canonical .secure) [v]
  rw [Units.val_cons, Units.val_nil, Nat.mul_zero, Nat.add_zero] at hw
  exact ⟨hw.canonical, hw.toInt_eq⟩

/-! ## Shifts -/

theorem signed_scale (negative : Bool) (m k : Nat) :
    signed negative (m * 2 ^ k) = signed negative m * 2 ^ k := by
  cases negative <;> simp [signed]

theorem shifted_limbs (us : Units) (k : Nat) :
    Units.val (Units.zeros (k / 64) ++ (Units.shiftLeft us (k % 64)).1 ++
      [(Units.shiftLeft us (k % 64)).2]) = Units.val us * 2 ^ k := by
  have hv := Units.shiftLeft_value us (k % 64) (Nat.mod_lt _ (by decide))
  have hpow : 2 ^ (64 * (k / 64)) * 2 ^ (k % 64) = 2 ^ k := by
    rw [← pow_add, Nat.div_add_mod]
  rw [List.append_assoc, Units.val_append, Units.val_zeros, Units.length_zeros, Nat.zero_add,
    Units.val_append, Units.length_shiftLeft, Units.val_cons, Units.val_nil, Nat.mul_zero,
    Nat.add_zero, hv, ← Nat.mul_assoc, hpow, Nat.mul_comm]

theorem shiftLeft_represents (hx : Canonical x) (k : Nat) :
    Represents (x.shiftLeft k).val (x.toInt * 2 ^ k) := by
  unfold shiftLeft
  by_cases h0 : x.isZero = true
  · rw [if_pos h0, hx.isZero_iff.mp h0, Int.zero_mul]
    exact ⟨empty_canonical _, rfl⟩
  · have hr := (write_written (empty_canonical x.alloc) (Units.zeros (k / 64) ++
      (Units.shiftLeft x.units (k % 64)).1 ++ [(Units.shiftLeft x.units (k % 64)).2])).represents
      x.negative
    rw [shifted_limbs, signed_scale] at hr
    rw [if_neg h0]
    exact hr

/-! ## Bits -/

theorem isOdd_iff (hx : Canonical x) : x.isOdd = true ↔ x.magnitude % 2 = 1 := by
  rw [hx.magnitude_eq]
  have hsize := hx.clear_above
  cases hb : x.buffer with
  | nil => simp [isOdd, hb]
  | cons u us =>
    have hu : (u &&& 1 == 1) = decide (u.toNat % 2 = 1) := by
      rw [Bool.eq_iff_iff, beq_iff_eq, decide_eq_true_eq, ← UInt64.toNat_inj, Limb.and_one_toNat]
      rfl
    rw [Units.val_cons, Nat.add_mod, Nat.mul_mod]
    simp only [isOdd, hb, List.headD_cons, hu, Bool.and_eq_true, bne_iff_ne, decide_eq_true_eq]
    constructor
    · intro h
      omega
    · intro h
      refine ⟨fun h0 => ?_, by omega⟩
      rw [hb, h0, List.drop_zero, Units.val_cons] at hsize
      omega

theorem isEven_iff (hx : Canonical x) : x.isEven = true ↔ x.magnitude % 2 = 0 := by
  have hodd := isOdd_iff hx
  rw [isEven, Bool.not_eq_true', ← Bool.not_eq_true, hodd]
  omega

theorem bitLength_eq (x : BigInt) : x.bitLength = x.magnitude.size := Units.bit_length_eq x.units

theorem magnitude_lt (x : BigInt) : x.magnitude < 2 ^ x.bitLength := by
  rw [bitLength_eq]
  exact Nat.lt_size_self _

/-- The highest bit of the length is set. -/
theorem magnitude_half (h : x.magnitude ≠ 0) : 2 ^ x.bitLength ≤ 2 * x.magnitude := by
  have hpos : 0 < x.magnitude.size := Nat.size_pos.mpr (Nat.pos_of_ne_zero h)
  have hlow : 2 ^ (x.magnitude.size - 1) ≤ x.magnitude := Nat.lt_size.mp (by omega)
  rw [bitLength_eq, ← Nat.sub_add_cancel hpos, Nat.pow_succ']
  exact Nat.mul_le_mul_left 2 hlow

theorem bitAt_value (x : BigInt) (i : Nat) : (x.bitAt i).toNat = x.magnitude / 2 ^ i % 2 := by
  have hr : i % 64 < 64 := Nat.mod_lt _ (by decide)
  have hpow : 2 ^ (64 * (i / 64)) * 2 ^ (i % 64) = 2 ^ i := by
    rw [← pow_add, Nat.div_add_mod]
  have hbase : (2 : Nat) ^ 64 = 2 ^ (i % 64) * 2 ^ (64 - i % 64) := (Units.pow_split _ hr).symm
  have htwo : 2 ∣ 2 ^ (64 - i % 64) := dvd_pow_self 2 (by omega)
  rw [bitAt, Limb.and_one_toNat]
  change ((x.units.getD (i / 64) 0) >>> (i % 64).toUInt64).toNat % 2 = _
  rw [Units.toNat_shiftRight _ _ hr, Units.limb_at, hbase, Nat.mod_mul_right_div_self,
    Nat.mod_mod_of_dvd _ htwo, Nat.div_div_eq_div_mul, hpow]
  rfl

end CryptoPrimitives.BigInt
