import CryptoPrimitives.Limb.Choice
import Mathlib.Data.Nat.Size
import Mathlib.Tactic.Positivity

/-!
# Values of the masked choices

Selection by a mask is selection, the branch-free test is the test for zero, and the halving search
finds the bit length.
-/

set_option autoImplicit false

namespace CryptoPrimitives.Limb

@[simp] theorem choose_true (a b : Limb) : choose true a b = b := by
  have h : mask true = -1 := rfl
  rw [choose, h, UInt64.neg_one_and, ← UInt64.xor_assoc, UInt64.xor_self, UInt64.zero_xor]

@[simp] theorem choose_false (a b : Limb) : choose false a b = a := by
  have h : mask false = 0 := rfl
  rw [choose, h, UInt64.zero_and, UInt64.xor_zero]

theorem choose_eq (choice : Bool) (a b : Limb) : choose choice a b = if choice then b else a := by
  cases choice <;> simp

/-- One of a non-zero limb and its negative has the top bit set. -/
theorem nonzero_iff (x : Limb) : isNonzero x = true ↔ x ≠ 0 := by
  have hx := x.toNat_lt
  have hs : ((x ||| (0 - x)) >>> 63).toNat =
      (x.toNat ||| (2 ^ 64 - x.toNat) % 2 ^ 64) / 2 ^ 63 := by
    simp [Nat.shiftRight_eq_div_pow]
  have hor : (x.toNat ||| (2 ^ 64 - x.toNat) % 2 ^ 64) < 2 ^ 64 :=
    Nat.or_lt_two_pow hx (Nat.mod_lt _ (by decide))
  have hl : x.toNat ≤ x.toNat ||| (2 ^ 64 - x.toNat) % 2 ^ 64 := Nat.left_le_or
  have hr : (2 ^ 64 - x.toNat) % 2 ^ 64 ≤ x.toNat ||| (2 ^ 64 - x.toNat) % 2 ^ 64 :=
    Nat.right_le_or
  rw [isNonzero, beq_iff_eq, ← UInt64.toNat_inj, hs, ne_eq, ← UInt64.toNat_inj]
  change _ = 1 ↔ ¬x.toNat = 0
  constructor
  · intro h h0
    simp [h0] at h
  · intro h
    omega

theorem nonzero_false_iff (x : Limb) : isNonzero x = false ↔ x = 0 := by
  rw [← Bool.not_eq_true, nonzero_iff, not_not]

theorem nonzero_eq (x : Limb) : isNonzero x = decide (x.toNat ≠ 0) := by
  rw [Bool.eq_iff_iff, nonzero_iff, decide_eq_true_eq, not_iff_not, ← UInt64.toNat_inj]
  rfl

/-! ## Bit length -/

theorem size_div_pow (a k : Nat) (h : a / 2 ^ k ≠ 0) : a.size = (a / 2 ^ k).size + k := by
  apply le_antisymm
  · rw [Nat.size_le, pow_add]
    exact (Nat.div_lt_iff_lt_mul (by positivity)).mp (Nat.lt_size_self _)
  · have hp : 0 < (a / 2 ^ k).size := Nat.size_pos.mpr (Nat.pos_of_ne_zero h)
    have hlow : 2 ^ ((a / 2 ^ k).size - 1) ≤ a / 2 ^ k := Nat.lt_size.mp (by omega)
    have : 2 ^ ((a / 2 ^ k).size - 1 + k) ≤ a := by
      rw [pow_add]
      exact (Nat.le_div_iff_mul_le (by positivity)).mp hlow
    have := Nat.lt_size.mpr this
    omega

structure Halved (x : Limb) (width : Nat) (s : Limb × Limb) : Prop where
  part_lt : s.1.toNat < 2 ^ width
  count_le : s.2.toNat + width ≤ 64
  total : s.2.toNat + s.1.toNat.size = x.toNat.size

theorem halved_step (x k : Limb) (s : Limb × Limb) (h : Halved x (2 * k.toNat) s)
    (hk : 0 < k.toNat) : Halved x k.toNat (bitLenStep s k) := by
  obtain ⟨hp, hc, ht⟩ := h
  have hv : (s.1 >>> k).toNat = s.1.toNat / 2 ^ k.toNat := by
    rw [UInt64.toNat_shiftRight, Nat.shiftRight_eq_div_pow, Nat.mod_eq_of_lt (by omega)]
  cases hz : isNonzero (s.1 >>> k) with
  | true =>
    have hm : mask true = -1 := rfl
    have hpos : s.1.toNat / 2 ^ k.toNat ≠ 0 := by
      rw [nonzero_eq, hv, decide_eq_true_eq] at hz
      exact hz
    have hsz := size_div_pow _ _ hpos
    have hpart : s.1.toNat / 2 ^ k.toNat < 2 ^ k.toNat := by
      rw [Nat.div_lt_iff_lt_mul (by positivity), ← pow_add, ← two_mul]
      exact hp
    constructor <;>
      simp only [bitLenStep, hz, choose_true, hm, UInt64.and_neg_one, UInt64.toNat_add, hv]
    · exact hpart
    · omega
    · omega
  | false =>
    have hm : mask false = 0 := rfl
    have h0 : s.1.toNat / 2 ^ k.toNat = 0 := by
      rw [nonzero_false_iff] at hz
      rw [← hv, hz]
      rfl
    constructor <;> simp only [bitLenStep, hz, choose_false, hm, UInt64.and_zero, UInt64.add_zero]
    · exact (Nat.div_eq_zero_iff_lt (by positivity)).mp h0
    · omega
    · exact ht

theorem bit_length_eq (x : Limb) : bitLength x = x.toNat.size := by
  have h64 : Halved x 64 (x, 0) := ⟨x.toNat_lt, le_refl _, by simp⟩
  have h32 := halved_step x 32 _ h64 (by decide)
  have h16 := halved_step x 16 _ h32 (by decide)
  have h8 := halved_step x 8 _ h16 (by decide)
  have h4 := halved_step x 4 _ h8 (by decide)
  have h2 := halved_step x 2 _ h4 (by decide)
  have h1 := halved_step x 1 _ h2 (by decide)
  simp only [bitLength, List.foldl_cons, List.foldl_nil]
  generalize bitLenStep (bitLenStep (bitLenStep (bitLenStep (bitLenStep (bitLenStep (x, 0) 32) 16)
    8) 4) 2) 1 = s at h1
  obtain ⟨hp, hc, ht⟩ := h1
  have hbit : (s.1 &&& 1).toNat = s.1.toNat.size := by
    have h : s.1.toNat = 0 ∨ s.1.toNat = 1 := by
      have : (1 : Limb).toNat = 1 := rfl
      rw [this] at hp
      omega
    rw [UInt64.toNat_and]
    rcases h with h | h <;> rw [h] <;> rfl
  rw [UInt64.toNat_add, hbit, ht]
  have hs := Nat.size_le.mpr x.toNat_lt
  omega

end CryptoPrimitives.Limb
