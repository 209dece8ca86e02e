import CryptoPrimitives.Proofs.Units.Value
import CryptoPrimitives.Units.Shift

/-!
# Values of shifts

A shift to the left multiplies, the bits that leave the top being the high part of the product; a
shift to the right divides, the bits that leave the bottom being the remainder, left-aligned.
-/

set_option autoImplicit false

namespace CryptoPrimitives.Units

/-! ## One limb -/

theorem shift_amount (k : Nat) (h : k < 64) : k.toUInt64.toNat = k := by
  simp only [Nat.toUInt64_eq, UInt64.toNat_ofNat']
  omega

theorem shift_complement (k : Nat) (h0 : 0 < k) (h : k < 64) :
    (64 - k.toUInt64).toNat = 64 - k := by
  rw [UInt64.toNat_sub, shift_amount k h]
  change (2 ^ 64 - k + 64) % 2 ^ 64 = 64 - k
  omega

theorem pow_split (k : Nat) (h : k < 64) : 2 ^ k * 2 ^ (64 - k) = 2 ^ 64 := by
  rw [← pow_add]
  congr 1
  omega

theorem toNat_shiftLeft (u : Limb) (k : Nat) (h : k < 64) :
    (u <<< k.toUInt64).toNat = 2 ^ k * (u.toNat % 2 ^ (64 - k)) := by
  rw [UInt64.toNat_shiftLeft, shift_amount k h, Nat.mod_eq_of_lt h, Nat.shiftLeft_eq,
    ← pow_split k h, Nat.mul_comm, Nat.mul_mod_mul_left]

theorem toNat_shiftRight (u : Limb) (k : Nat) (h : k < 64) :
    (u >>> k.toUInt64).toNat = u.toNat / 2 ^ k := by
  rw [UInt64.toNat_shiftRight, shift_amount k h, Nat.mod_eq_of_lt h, Nat.shiftRight_eq_div_pow]

/-- Bits that come in below a multiple of a power of two are added to it. -/
theorem toNat_or_low (hi lo : Limb) (k m : Nat) (hh : hi.toNat = 2 ^ k * m)
    (hl : lo.toNat < 2 ^ k) :
    (hi ||| lo).toNat = 2 ^ k * m + lo.toNat := by
  rw [UInt64.toNat_or, hh, ← Nat.two_pow_add_eq_or_of_lt hl]

/-! ## To the left -/

theorem length_shiftLeftFrom (k carry : Limb) (us : Units) :
    (shiftLeftFrom k carry us).1.length = us.length := by
  induction us generalizing carry with
  | nil => rfl
  | cons u us ih => simp [shiftLeftFrom, ih]

theorem shiftLeftFrom_value (k : Nat) (carry : Limb) (us : Units) (h0 : 0 < k) (h : k < 64)
    (hc : carry.toNat < 2 ^ k) :
    val (shiftLeftFrom k.toUInt64 carry us).1 +
        2 ^ (64 * us.length) * (shiftLeftFrom k.toUInt64 carry us).2.toNat =
      2 ^ k * val us + carry.toNat := by
  induction us generalizing carry with
  | nil => simp [shiftLeftFrom]
  | cons u us ih =>
    have hout : (u >>> (64 - k.toUInt64)).toNat = u.toNat / 2 ^ (64 - k) := by
      rw [UInt64.toNat_shiftRight, shift_complement k h0 h, Nat.mod_eq_of_lt (by omega),
        Nat.shiftRight_eq_div_pow]
    have hlt : (u >>> (64 - k.toUInt64)).toNat < 2 ^ k := by
      rw [hout, Nat.div_lt_iff_lt_mul (by positivity), pow_split k h]
      exact u.toNat_lt
    have hr := ih _ hlt
    have hlow := toNat_or_low _ carry k _ (toNat_shiftLeft u k h) hc
    have hu : 2 ^ k * u.toNat = 2 ^ k * (u.toNat % 2 ^ (64 - k)) +
        2 ^ 64 * (u.toNat / 2 ^ (64 - k)) := by
      rw [← pow_split k h, Nat.mul_assoc, ← Nat.mul_add, Nat.mod_add_div]
    rw [hout] at hr
    simp only [shiftLeftFrom, val_cons, List.length_cons, pow_limb_succ, hlow]
    calc _ = 2 ^ k * (u.toNat % 2 ^ (64 - k)) + carry.toNat + 2 ^ 64 *
          (val (shiftLeftFrom k.toUInt64 (u >>> (64 - k.toUInt64)) us).1 + 2 ^ (64 * us.length) *
            (shiftLeftFrom k.toUInt64 (u >>> (64 - k.toUInt64)) us).2.toNat) := by ring
      _ = 2 ^ k * (u.toNat % 2 ^ (64 - k)) + 2 ^ 64 * (u.toNat / 2 ^ (64 - k)) + carry.toNat +
          2 ^ 64 * (2 ^ k * val us) := by rw [hr]; ring
      _ = 2 ^ k * (u.toNat + 2 ^ 64 * val us) + carry.toNat := by rw [← hu]; ring

theorem length_shiftLeft (us : Units) (k : Nat) : (shiftLeft us k).1.length = us.length := by
  unfold shiftLeft
  split
  · rfl
  · exact length_shiftLeftFrom _ _ _

theorem shiftLeft_value (us : Units) (k : Nat) (h : k < 64) :
    val (shiftLeft us k).1 + 2 ^ (64 * us.length) * (shiftLeft us k).2.toNat =
      2 ^ k * val us := by
  unfold shiftLeft
  split
  · next h0 => simp [h0]
  · next h0 => exact shiftLeftFrom_value k 0 us (by omega) h (by simp)

/-! ## To the right -/

theorem length_shiftRightFrom (k : Limb) (us : Units) :
    (shiftRightFrom k us).1.length = us.length := by
  induction us with
  | nil => rfl
  | cons u us ih => simp [shiftRightFrom, ih]

/-- Dividing the lowest limb and the rest apart, the rest's remainder enters the lowest limb's
quotient from above. -/
theorem div_limb_pow (u v k : Nat) (h : k < 64) :
    (u + 2 ^ 64 * v) / 2 ^ k = 2 ^ (64 - k) * (v % 2 ^ k) + u / 2 ^ k + 2 ^ 64 * (v / 2 ^ k) := by
  have hv : 2 ^ 64 * v = 2 ^ k * (2 ^ (64 - k) * (v % 2 ^ k) + 2 ^ 64 * (v / 2 ^ k)) := by
    calc 2 ^ 64 * v = 2 ^ 64 * (v % 2 ^ k + 2 ^ k * (v / 2 ^ k)) := by rw [Nat.mod_add_div]
      _ = 2 ^ k * 2 ^ (64 - k) * (v % 2 ^ k) + 2 ^ k * 2 ^ 64 * (v / 2 ^ k) := by
        rw [pow_split k h]
        ring
      _ = _ := by ring
  rw [hv, Nat.add_mul_div_left _ _ (by positivity)]
  omega

theorem shiftRightFrom_value (k : Nat) (us : Units) (h0 : 0 < k) (h : k < 64) :
    val (shiftRightFrom k.toUInt64 us).1 = val us / 2 ^ k ∧
      (shiftRightFrom k.toUInt64 us).2.toNat = 2 ^ (64 - k) * (val us % 2 ^ k) := by
  induction us with
  | nil => simp [shiftRightFrom]
  | cons u us ih =>
    obtain ⟨hval, hout⟩ := ih
    have hlt : (u >>> k.toUInt64).toNat < 2 ^ (64 - k) := by
      rw [toNat_shiftRight u k h, Nat.div_lt_iff_lt_mul (by positivity), Nat.mul_comm,
        pow_split k h]
      exact u.toNat_lt
    have hlow := toNat_or_low _ _ (64 - k) _ hout hlt
    rw [UInt64.or_comm, toNat_shiftRight u k h] at hlow
    have hmod : (u.toNat + 2 ^ 64 * val us) % 2 ^ k = u.toNat % 2 ^ k := by
      rw [← pow_split k h, Nat.mul_assoc, Nat.add_mul_mod_self_left]
    simp only [shiftRightFrom, val_cons, hlow, hval]
    refine ⟨(div_limb_pow _ _ k h).symm, ?_⟩
    rw [UInt64.toNat_shiftLeft, shift_complement k h0 h,
      Nat.mod_eq_of_lt (show 64 - k < 64 by omega), Nat.shiftLeft_eq, hmod,
      ← pow_split k h, Nat.mul_mod_mul_right, Nat.mul_comm]

/-- The limbs left and the bits that have left are the quotient and the remainder. -/
theorem shiftRightFrom_split (k : Nat) (us : Units) (h0 : 0 < k) (h : k < 64) :
    val (shiftRightFrom k.toUInt64 us).1 * 2 ^ k +
        (shiftRightFrom k.toUInt64 us).2.toNat / 2 ^ (64 - k) = val us := by
  obtain ⟨hval, hout⟩ := shiftRightFrom_value k us h0 h
  rw [hval, hout, Nat.mul_div_cancel_left _ (by positivity), Nat.div_add_mod']

theorem length_shiftRight (us : Units) (k : Nat) : (shiftRight us k).1.length = us.length := by
  unfold shiftRight
  split
  · rfl
  · exact length_shiftRightFrom _ _

theorem shiftRight_value (us : Units) (k : Nat) (h : k < 64) :
    val (shiftRight us k).1 = val us / 2 ^ k := by
  unfold shiftRight
  split
  · next h0 => simp [h0]
  · next h0 => exact (shiftRightFrom_value k us (by omega) h).1

end CryptoPrimitives.Units
