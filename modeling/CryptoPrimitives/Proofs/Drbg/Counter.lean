import CryptoPrimitives.Drbg.Ctr
import CryptoPrimitives.Proofs.Drbg.Standard
import Mathlib.Data.List.Induction

/-!
# Counter blocks as numbers

A counter block that goes up byte by byte, with the carry, goes up by one as a number of 128 bits.
-/

set_option autoImplicit false

namespace CryptoPrimitives

namespace CtrStandard

theorem length_numeral (width n : Nat) : (numeral width n).length = width := by
  induction width generalizing n with
  | zero => rfl
  | succ width ih => rw [numeral, List.length_append, ih, List.length_singleton]

/-- What does not fit is left out. -/
theorem numeral_mod (width n : Nat) : numeral width (n % 256 ^ width) = numeral width n := by
  induction width generalizing n with
  | zero => rfl
  | succ width ih =>
    have hlow : (n % 256 ^ (width + 1)).toUInt8 = n.toUInt8 := by
      apply UInt8.toNat_inj.mp
      exact Nat.mod_mod_of_dvd n (Dvd.intro_left (256 ^ width) rfl)
    have hhigh : n % 256 ^ (width + 1) / 256 = n / 256 % 256 ^ width := by
      rw [pow_succ, Nat.mul_comm, Nat.mod_mul_right_div_self]
    rw [numeral, numeral, hlow, hhigh, ih]

theorem value_concat (bytes : Bytes) (b : UInt8) :
    Bytes.value (bytes ++ [b]) = 256 * Bytes.value bytes + b.toNat := by
  rw [Bytes.value, List.foldl_append]
  rfl

theorem value_numeral (width n : Nat) : Bytes.value (numeral width n) = n % 256 ^ width := by
  induction width generalizing n with
  | zero => exact (Nat.mod_one n).symm
  | succ width ih =>
    have hlow : n.toUInt8.toNat = n % 256 := rfl
    rw [numeral, value_concat, ih, hlow, pow_succ, Nat.mul_comm (256 ^ width), Nat.mod_mul]
    omega

theorem numeral_concat (width n : Nat) (b : UInt8) :
    numeral (width + 1) (256 * n + b.toNat) = numeral width n ++ [b] := by
  have hb := b.toNat_lt
  have hhigh : (256 * n + b.toNat) / 256 = n := by omega
  have hlow : (256 * n + b.toNat).toUInt8 = b := by
    apply UInt8.toNat_inj.mp
    simp
  rw [numeral, hhigh, hlow]

theorem be32_numeral (n : Nat) : Bytes.be32 n.toUInt32 = numeral 4 n := by
  have hthree : (n.toUInt32 >>> 24).toUInt8 = (n / 256 / 256 / 256).toUInt8 := by
    apply UInt8.toNat_inj.mp
    simp [Nat.shiftRight_eq_div_pow]
    omega
  have htwo : (n.toUInt32 >>> 16).toUInt8 = (n / 256 / 256).toUInt8 := by
    apply UInt8.toNat_inj.mp
    simp [Nat.shiftRight_eq_div_pow]
    omega
  have hone : (n.toUInt32 >>> 8).toUInt8 = (n / 256).toUInt8 := by
    apply UInt8.toNat_inj.mp
    simp [Nat.shiftRight_eq_div_pow]
    omega
  have hzero : n.toUInt32.toUInt8 = n.toUInt8 := by
    apply UInt8.toNat_inj.mp
    simp
  rw [Bytes.be32, hthree, htwo, hone, hzero]
  rfl

end CtrStandard

open CtrStandard

theorem nextCounter_concat (bytes : Bytes) (b : UInt8) :
    nextCounter (bytes ++ [b]) =
      if b + 1 = 0 then nextCounter bytes ++ [0] else bytes ++ [b + 1] := by
  rw [nextCounter, List.reverse_append, List.reverse_singleton, List.singleton_append, incrementLE]
  split
  · rw [List.reverse_cons]
    rfl
  · rw [List.reverse_cons, List.reverse_reverse]

theorem numeral_value (bytes : Bytes) : numeral bytes.length (Bytes.value bytes) = bytes := by
  induction bytes using List.reverseRecOn with
  | nil => rfl
  | append_singleton bytes b ih =>
    rw [List.length_append, List.length_singleton, value_concat, numeral_concat, ih]

/-- The carry runs up through the bytes as through the digits of the number. -/
theorem nextCounter_value (v : Bytes) : nextCounter v = numeral v.length (Bytes.value v + 1) := by
  induction v using List.reverseRecOn with
  | nil => rfl
  | append_singleton v b ih =>
    rw [nextCounter_concat, List.length_append, List.length_singleton, value_concat]
    split
    · rename_i hcarry
      have hb : b.toNat = 255 := by
        have hlt := b.toNat_lt
        have hzero := congrArg UInt8.toNat hcarry
        simp at hzero
        omega
      have hnext : 256 * Bytes.value v + b.toNat + 1 =
          256 * (Bytes.value v + 1) + (0 : UInt8).toNat := by
        rw [hb]
        rfl
      rw [hnext, numeral_concat, ih]
    · rename_i hcarry
      have hb : (b + 1).toNat = b.toNat + 1 := by
        have hlt := b.toNat_lt
        have hzero : (b + 1).toNat ≠ 0 := fun h => hcarry (UInt8.toNat_inj.mp h)
        simp at hzero ⊢
        omega
      rw [Nat.add_assoc, ← hb, numeral_concat, numeral_value]

theorem nextCounter_increment (v : Bytes) (hv : v.length = 16) : nextCounter v = increment v := by
  have hpow : 2 ^ 128 = 256 ^ 16 := by norm_num
  rw [nextCounter_value, hv, increment, hpow, numeral_mod]

theorem nextCounter_numeral (n : Nat) : nextCounter (numeral 16 n) = numeral 16 (n + 1) := by
  rw [nextCounter_value, length_numeral, value_numeral, ← numeral_mod 16 (n % 256 ^ 16 + 1),
    Nat.mod_add_mod, numeral_mod]

theorem length_increment (v : Bytes) : (increment v).length = 16 := length_numeral _ _

end CryptoPrimitives
