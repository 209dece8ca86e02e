import CryptoPrimitives.Proofs.Limb.Choice
import CryptoPrimitives.Units.Basic
import Mathlib.Tactic.Ring

/-!
# The value of units and what the measures say about it

`val` is additive over pieces and bounded by the length. Every measure that walks a list from its
low end is a function of the value: the branch-free accumulations compute the order, the number of
significant limbs and the bit length of the number that the list stands for.
-/

set_option autoImplicit false

namespace CryptoPrimitives.Units

theorem pow_limb_succ (n : Nat) : 2 ^ (64 * (n + 1)) = 2 ^ 64 * 2 ^ (64 * n) := by
  rw [← pow_add]
  congr 1
  ring

@[simp] theorem val_nil : val [] = 0 := rfl

@[simp] theorem val_cons (u : Limb) (us : Units) : val (u :: us) = u.toNat + 2 ^ 64 * val us := rfl

theorem val_append (s t : Units) : val (s ++ t) = val s + 2 ^ (64 * s.length) * val t := by
  induction s with
  | nil => simp
  | cons u us ih =>
    rw [List.cons_append, val_cons, ih, val_cons, List.length_cons, pow_limb_succ]
    ring

theorem val_lt (us : Units) : val us < 2 ^ (64 * us.length) := by
  induction us with
  | nil => simp
  | cons u us ih =>
    have hu := u.toNat_lt
    rw [val_cons, List.length_cons, pow_limb_succ]
    omega

@[simp] theorem length_zeros (n : Nat) : (zeros n).length = n := by simp [zeros]

@[simp] theorem val_zeros (n : Nat) : val (zeros n) = 0 := by
  induction n with
  | zero => rfl
  | succ n ih =>
    rw [zeros, List.replicate_succ, val_cons, ← zeros, ih]
    rfl

theorem val_take_drop (us : Units) (n : Nat) (h : n ≤ us.length) :
    val us = val (us.take n) + 2 ^ (64 * n) * val (us.drop n) := by
  have hv := val_append (us.take n) (us.drop n)
  rwa [List.take_append_drop, List.length_take, Nat.min_eq_left h] at hv

theorem val_take (us : Units) (n : Nat) (h : n ≤ us.length) :
    val (us.take n) = val us % 2 ^ (64 * n) := by
  have hl := val_lt (us.take n)
  rw [List.length_take, Nat.min_eq_left h] at hl
  rw [val_take_drop us n h, Nat.add_mul_mod_self_left, Nat.mod_eq_of_lt hl]

theorem val_drop (us : Units) (n : Nat) (h : n ≤ us.length) :
    val (us.drop n) = val us / 2 ^ (64 * n) := by
  have hl := val_lt (us.take n)
  rw [List.length_take, Nat.min_eq_left h] at hl
  rw [val_take_drop us n h, Nat.add_mul_div_left _ _ (by positivity), Nat.div_eq_of_lt hl,
    Nat.zero_add]

theorem val_padTo (n : Nat) (us : Units) : val (padTo n us) = val us := by
  simp [padTo, val_append]

theorem length_padTo (n : Nat) (us : Units) (h : us.length ≤ n) : (padTo n us).length = n := by
  simp [padTo]
  omega

theorem val_injective (s t : Units) (hl : s.length = t.length) (hv : val s = val t) : s = t := by
  induction s generalizing t with
  | nil => exact (List.length_eq_zero_iff.mp hl.symm).symm
  | cons s ss ih =>
    cases t with
    | nil => simp at hl
    | cons t ts =>
      have hs := s.toNat_lt
      have ht := t.toNat_lt
      simp only [val_cons] at hv
      have hhead : s = t := UInt64.toNat_inj.mp (by omega)
      rw [hhead, ih ts (by simpa using hl) (by omega)]

theorem limb_at (us : Units) (i : Nat) :
    (us.getD i 0).toNat = val us / 2 ^ (64 * i) % 2 ^ 64 := by
  induction us generalizing i with
  | nil => simp
  | cons u us ih =>
    have hu := u.toNat_lt
    cases i with
    | zero => simp only [List.getD_cons_zero, val_cons, Nat.mul_zero, pow_zero, Nat.div_one]; omega
    | succ i =>
      have hd : (u.toNat + 2 ^ 64 * val us) / 2 ^ 64 = val us := by omega
      rw [List.getD_cons_succ, ih i, val_cons, pow_limb_succ, ← Nat.div_div_eq_div_mul, hd]

theorem val_ofNat (n : Nat) : val (ofNat n) = n := by
  induction n using Nat.strongRecOn with
  | ind n ih =>
    rw [ofNat]
    split
    · next h0 => rw [h0, val_nil]
    · next h0 =>
      have hlow : n.toUInt64.toNat = n % 2 ^ 64 := UInt64.toNat_ofNat'
      have hb : Limb.base = 2 ^ 64 := rfl
      rw [val_cons, ih _ (Nat.div_lt_self (Nat.pos_of_ne_zero h0) (by decide)), hlow, hb,
        Nat.mod_add_div]

/-! ## Zero -/

theorem or_eq_zero (us : Units) (acc : Limb) :
    us.foldl (· ||| ·) acc = 0 ↔ acc = 0 ∧ ∀ u ∈ us, u = 0 := by
  induction us generalizing acc with
  | nil => simp
  | cons u us ih => simp [ih, UInt64.or_eq_zero_iff, and_assoc]

theorem zero_val_iff (us : Units) : val us = 0 ↔ ∀ u ∈ us, u = 0 := by
  induction us with
  | nil => simp
  | cons u us ih =>
    have h0 : u.toNat = 0 ↔ u = 0 := UInt64.toNat_inj (b := 0)
    simp only [val_cons, List.forall_mem_cons, ← ih, ← h0]
    omega

theorem isZero_eq (us : Units) : isZero us = decide (val us = 0) := by
  rw [Bool.eq_iff_iff, isZero, beq_iff_eq, or_eq_zero, decide_eq_true_eq, zero_val_iff]
  simp

theorem eq_zeros (us : Units) (h : val us = 0) : us = zeros us.length :=
  List.eq_replicate_iff.mpr ⟨rfl, (zero_val_iff us).mp h⟩

/-! ## Significant limbs -/

theorem significantFrom_eq (us : Units) (i count : Nat) :
    significantFrom i count us = if val us = 0 then count else i + significant us := by
  induction us generalizing i count with
  | nil => simp [significantFrom]
  | cons u us ih =>
    have hu : u.toNat = 0 ∨ u.toNat ≠ 0 := eq_or_ne _ _
    rw [significant, significantFrom, significantFrom, ih, ih, Limb.nonzero_eq, val_cons]
    by_cases hv : val us = 0 <;> rcases hu with hu | hu <;> simp [hv, hu]
    · omega
    · omega

/-- The significant limbs are the fewest that hold the value. -/
theorem significant_le_iff (us : Units) (k : Nat) :
    significant us ≤ k ↔ val us < 2 ^ (64 * k) := by
  induction us generalizing k with
  | nil => simp [significant, significantFrom]
  | cons u us ih =>
    have hu := u.toNat_lt
    rw [significant, significantFrom, significantFrom_eq, Limb.nonzero_eq, val_cons]
    by_cases hv : val us = 0
    · rw [if_pos hv, hv]
      cases k with
      | zero => by_cases h0 : u.toNat = 0 <;> simp [h0]
      | succ k =>
        have : 0 < 2 ^ (64 * k) := by positivity
        rw [pow_limb_succ]
        constructor
        · intro
          omega
        · intro
          split <;> omega
    · rw [if_neg hv]
      cases k with
      | zero => simp [hv]
      | succ k =>
        rw [pow_limb_succ, Nat.add_comm, Nat.zero_add, Nat.add_le_add_iff_right, ih]
        omega

theorem significant_le (us : Units) : significant us ≤ us.length :=
  (significant_le_iff us _).mpr (val_lt us)

theorem val_drop_significant (us : Units) : val (us.drop (significant us)) = 0 := by
  rw [val_drop us _ (significant_le us)]
  exact Nat.div_eq_of_lt ((significant_le_iff us _).mp (le_refl _))

theorem top_limb_ne_zero (us : Units) (h : significant us ≠ 0) :
    us.getD (significant us - 1) 0 ≠ 0 := by
  intro h0
  have hz := limb_at us (significant us - 1)
  rw [h0] at hz
  have hlt := (significant_le_iff us _).mp (le_refl _)
  have hge : ¬val us < 2 ^ (64 * (significant us - 1)) := by
    rw [← significant_le_iff]
    omega
  obtain ⟨k, hk⟩ : ∃ k, significant us = k + 1 := ⟨significant us - 1, by omega⟩
  rw [hk] at hlt hge hz
  rw [pow_limb_succ] at hlt
  have hd : val us / 2 ^ (64 * k) < 2 ^ 64 := Nat.div_lt_of_lt_mul (by rwa [Nat.mul_comm] at hlt)
  rw [Nat.add_sub_cancel, Nat.mod_eq_of_lt hd] at hz
  exact hge ((Nat.div_eq_zero_iff_lt (by positivity)).mp hz.symm)

theorem significant_eq_zero_iff (us : Units) : significant us = 0 ↔ val us = 0 := by
  have h := significant_le_iff us 0
  rw [Nat.mul_zero, pow_zero] at h
  omega

/-- The number of significant limbs depends on the value alone. -/
theorem significant_congr {s t : Units} (h : val s = val t) : significant s = significant t := by
  apply eq_of_forall_ge_iff
  intro k
  rw [significant_le_iff, significant_le_iff, h]

def trimmed (us : Units) : Units := us.take (significant us)

theorem val_trimmed (us : Units) : val (trimmed us) = val us := by
  have hsplit := val_take_drop us _ (significant_le us)
  rw [val_drop_significant us, Nat.mul_zero, Nat.add_zero] at hsplit
  exact hsplit.symm

theorem significant_trimmed (us : Units) : significant (trimmed us) = significant us :=
  significant_congr (val_trimmed us)

theorem trimmed_isEmpty (us : Units) : (trimmed us).isEmpty = true ↔ val us = 0 := by
  rw [List.isEmpty_iff, trimmed, List.take_eq_nil_iff, ← significant_eq_zero_iff]
  constructor
  · rintro (h0 | rfl)
    · exact h0
    · rfl
  · exact Or.inl

/-! ## Bit length -/

theorem bitLengthFrom_eq (us : Units) (i bits : Nat) :
    bitLengthFrom i bits us = if val us = 0 then bits else i * 64 + (val us).size := by
  induction us generalizing i bits with
  | nil => simp [bitLengthFrom]
  | cons u us ih =>
    have hu := u.toNat_lt
    rw [bitLengthFrom, ih, Limb.nonzero_eq, Limb.bit_length_eq, val_cons]
    by_cases hv : val us = 0
    · by_cases h0 : u.toNat = 0 <;> simp [hv, h0, Limb.bits]
    · have hd : (u.toNat + 2 ^ 64 * val us) / 2 ^ 64 = val us := by omega
      have hs := Limb.size_div_pow (u.toNat + 2 ^ 64 * val us) 64 (by rwa [hd])
      rw [if_neg hv, if_neg (by omega), hs, hd]
      ring

theorem bit_length_eq (us : Units) : bitLength us = (val us).size := by
  rw [bitLength, bitLengthFrom_eq]
  by_cases hv : val us = 0 <;> simp [hv]

/-! ## Order -/

def orderOf (a b : Nat) (tie : Ordering) : Ordering :=
  if a < b then .lt else if b < a then .gt else tie

theorem orderOf_digit (s t a b : Nat) (tie : Ordering) (hs : s < 2 ^ 64) (ht : t < 2 ^ 64) :
    orderOf (s + 2 ^ 64 * a) (t + 2 ^ 64 * b) tie = orderOf a b (orderOf s t tie) := by
  unfold orderOf
  split_ifs <;> first | rfl | omega

/-- The highest limb in which the two differ overrides what lower limbs have said. -/
theorem compareFrom_eq (s t : Units) (verdict : Ordering) :
    compareFrom verdict s t =
      orderOf (val (s.take t.length)) (val (t.take s.length)) verdict := by
  induction s generalizing t verdict with
  | nil => simp [compareFrom, orderOf]
  | cons s ss ih =>
    cases t with
    | nil => simp [compareFrom, orderOf]
    | cons t ts =>
      rw [compareFrom, ih, List.length_cons, List.take_succ_cons, List.length_cons,
        List.take_succ_cons, val_cons, val_cons, orderOf_digit _ _ _ _ _ s.toNat_lt t.toNat_lt]
      rfl

theorem compare_eq (s t : Units) (h : s.length = t.length) :
    compare s t = orderOf (val s) (val t) .eq := by
  rw [compare, compareFrom_eq, ← h, List.take_length, h, List.take_length]

theorem compareUneven_eq (s t : Units) : compareUneven s t = orderOf (val s) (val t) .eq := by
  by_cases hl : s.length ≤ t.length
  · have hv := val_take_drop t s.length hl
    have hs := val_lt s
    rw [compareUneven, if_pos hl, isZero_eq, compare, compareFrom_eq, List.take_of_length_le hl]
    by_cases hz : val (t.drop s.length) = 0
    · simp only [hz, decide_true, if_true]
      rw [hz] at hv
      rw [hv, Nat.mul_zero, Nat.add_zero]
    · have hp := Nat.mul_le_mul_left (2 ^ (64 * s.length)) (Nat.one_le_iff_ne_zero.mpr hz)
      simp only [hz, decide_false, Bool.false_eq_true, if_false]
      rw [orderOf, if_pos (by omega)]
  · have hl' : t.length ≤ s.length := by omega
    have hv := val_take_drop s t.length hl'
    have ht := val_lt t
    rw [compareUneven, if_neg hl, isZero_eq, compare, compareFrom_eq, List.take_of_length_le hl']
    by_cases hz : val (s.drop t.length) = 0
    · simp only [hz, decide_true, if_true]
      rw [hz] at hv
      rw [hv, Nat.mul_zero, Nat.add_zero]
    · have hp := Nat.mul_le_mul_left (2 ^ (64 * t.length)) (Nat.one_le_iff_ne_zero.mpr hz)
      simp only [hz, decide_false, Bool.false_eq_true, if_false]
      rw [orderOf, if_neg (by omega), if_pos (by omega)]

theorem compareUneven_lt_iff (s t : Units) : compareUneven s t = .lt ↔ val s < val t := by
  rw [compareUneven_eq, orderOf]
  split_ifs <;> simp_all

/-! ## Selection -/

theorem assignIf_eq (choice : Bool) (r s : Units) (h : r.length = s.length) :
    assignIf choice r s = if choice then s else r := by
  induction r generalizing s with
  | nil => cases choice <;> simp [assignIf, List.length_eq_zero_iff.mp h.symm]
  | cons r rs ih =>
    cases s with
    | nil => simp at h
    | cons s ss =>
      have ht := ih ss (by simpa using h)
      rw [assignIf] at ht ⊢
      rw [List.zipWith_cons_cons, ht, Limb.choose_eq]
      cases choice <;> rfl

end CryptoPrimitives.Units
