import CryptoPrimitives.Proofs.Drbg.Counter

/-!
# The value of a byte string

The big-endian value reads a string as digits of base 256. Strings of one length are determined by
their values, and a string without leading zeros is as short as its value allows.
-/

set_option autoImplicit false

namespace CryptoPrimitives.Bytes

open CtrStandard (numeral value_concat value_numeral length_numeral)

@[simp] theorem value_nil : value [] = 0 := rfl

theorem value_append (s t : Bytes) : value (s ++ t) = value s * 256 ^ t.length + value t := by
  induction t using List.reverseRecOn with
  | nil => simp
  | append_singleton t b ih =>
    rw [← List.append_assoc, value_concat, ih, value_concat, List.length_append,
      List.length_singleton, pow_succ]
    ring

theorem value_cons (b : UInt8) (bytes : Bytes) :
    value (b :: bytes) = b.toNat * 256 ^ bytes.length + value bytes := by
  simpa [value] using value_append [b] bytes

theorem value_lt (bytes : Bytes) : value bytes < 256 ^ bytes.length := by
  induction bytes using List.reverseRecOn with
  | nil => simp
  | append_singleton bytes b ih =>
    have hb := b.toNat_lt
    rw [value_concat, List.length_append, List.length_singleton, pow_succ]
    omega

theorem value_zeros (n : Nat) : value (zeros n) = 0 := by
  induction n with
  | zero => rfl
  | succ n ih => rwa [zeros, List.replicate_succ, value_cons, UInt8.toNat_zero, Nat.zero_mul,
      Nat.zero_add]

theorem value_injective {s t : Bytes} (hl : s.length = t.length) (hv : value s = value t) :
    s = t := by
  rw [← numeral_value s, ← numeral_value t, hl, hv]

/-- The last bytes hold the low digits. -/
theorem value_drop (bytes : Bytes) {n : Nat} (h : n ≤ bytes.length) :
    value (bytes.drop (bytes.length - n)) = value bytes % 256 ^ n := by
  have hsplit := value_append (bytes.take (bytes.length - n)) (bytes.drop (bytes.length - n))
  have hlt := value_lt (bytes.drop (bytes.length - n))
  have hlen : (bytes.drop (bytes.length - n)).length = n := by
    rw [List.length_drop]
    omega
  rw [List.take_append_drop, hlen] at hsplit
  rw [hlen] at hlt
  rw [hsplit, Nat.mul_comm, Nat.mul_add_mod, Nat.mod_eq_of_lt hlt]

/-! ## Leading zeros -/

def significant (bytes : Bytes) : Bytes := bytes.dropWhile (· == 0)

theorem value_significant (bytes : Bytes) : value (significant bytes) = value bytes := by
  induction bytes with
  | nil => rfl
  | cons b bytes ih =>
    by_cases h0 : b = 0
    · simpa [significant, h0, value_cons] using ih
    · simp [significant, h0]

theorem significant_head {b : UInt8} {bytes rest : Bytes} (h : significant bytes = b :: rest) :
    b ≠ 0 := by
  have hhead := List.head?_dropWhile_not (· == (0 : UInt8)) bytes
  rw [significant] at h
  simpa [h] using hhead

/-- So many bytes are needed for the value, and no fewer do. -/
theorem length_significant_le_iff (bytes : Bytes) (n : Nat) :
    (significant bytes).length ≤ n ↔ value bytes < 256 ^ n := by
  have hlt := value_lt (significant bytes)
  rw [value_significant] at hlt
  constructor
  · intro hn
    exact hlt.trans_le (Nat.pow_le_pow_right (by decide) hn)
  · intro hv
    cases hs : significant bytes with
    | nil => exact Nat.zero_le n
    | cons b rest =>
      have hb : 0 < b.toNat := by
        have h0 := significant_head hs
        have : b.toNat ≠ 0 := fun h => h0 (UInt8.toNat_inj.mp h)
        omega
      by_contra hlong
      have hlow : 256 ^ rest.length ≤ value bytes := by
        rw [← value_significant, hs, value_cons]
        exact (Nat.le_mul_of_pos_left _ hb).trans (Nat.le_add_right _ _)
      have hpow : 256 ^ n ≤ 256 ^ rest.length := by
        apply Nat.pow_le_pow_right (by decide)
        simp at hlong
        omega
      omega

end CryptoPrimitives.Bytes
