import CryptoPrimitives.Proofs.Limb.Carry
import CryptoPrimitives.Proofs.Units.Value
import CryptoPrimitives.Units.Sum

/-!
# Values of sums and differences

One equation for each ripple: the limbs that it leaves and the carry or borrow out of the top stand
together for the exact sum or difference.
-/

set_option autoImplicit false

namespace CryptoPrimitives.Units

variable [Rendition]

/-! ## Carries -/

theorem length_addCarry (s t : Units) (carry : Limb) (h : s.length = t.length) :
    (addCarry s t carry).1.length = s.length := by
  induction s generalizing t carry with
  | nil => simp [addCarry]
  | cons s ss ih =>
    cases t with
    | nil => simp at h
    | cons t ts => simp [addCarry, ih ts _ (by simpa using h)]

theorem addCarry_value (s t : Units) (carry : Limb) (h : s.length = t.length) :
    val (addCarry s t carry).1 + 2 ^ (64 * s.length) * (addCarry s t carry).2.toNat =
      val s + val t + carry.toNat := by
  induction s generalizing t carry with
  | nil => simp [addCarry, List.length_eq_zero_iff.mp h.symm]
  | cons s ss ih =>
    cases t with
    | nil => simp at h
    | cons t ts =>
      have hd := Limb.adc_value s t carry
      have hr := ih ts (Limb.adc s t carry).2 (by simpa using h)
      simp only [addCarry, val_cons, List.length_cons, pow_limb_succ, Nat.mul_assoc]
      omega

/-- The carry out is a bit if the carry in is. -/
theorem addCarry_carry_le (s t : Units) (carry : Limb) (h : s.length = t.length)
    (hc : carry.toNat ≤ 1) : (addCarry s t carry).2.toNat ≤ 1 := by
  have hv := addCarry_value s t carry h
  have hs := val_lt s
  have ht := val_lt t
  rw [← h] at ht
  by_contra hgt
  have := Nat.mul_le_mul_left (2 ^ (64 * s.length)) (show 2 ≤ (addCarry s t carry).2.toNat by omega)
  omega

theorem length_addLimb (s : Units) (v : Limb) : (addLimb s v).1.length = s.length := by
  induction s generalizing v with
  | nil => rfl
  | cons s ss ih => simp [addLimb, ih]

theorem addLimb_value (s : Units) (v : Limb) :
    val (addLimb s v).1 + 2 ^ (64 * s.length) * (addLimb s v).2.toNat = val s + v.toNat := by
  induction s generalizing v with
  | nil => simp [addLimb]
  | cons s ss ih =>
    have hd := Limb.adc_value s v 0
    have hr := ih (Limb.adc s v 0).2
    have h0 : (0 : Limb).toNat = 0 := rfl
    simp only [addLimb, val_cons, List.length_cons, pow_limb_succ, Nat.mul_assoc]
    omega

/-! ## Borrows -/

theorem length_subBorrow (s t : Units) (borrow : Limb) (h : s.length = t.length) :
    (subBorrow s t borrow).1.length = s.length := by
  induction s generalizing t borrow with
  | nil => simp [subBorrow]
  | cons s ss ih =>
    cases t with
    | nil => simp at h
    | cons t ts => simp [subBorrow, ih ts _ (by simpa using h)]

theorem subBorrow_value (s t : Units) (borrow : Limb) (h : s.length = t.length)
    (hb : borrow.toNat ≤ 1) :
    val (subBorrow s t borrow).1 + val t + borrow.toNat =
        val s + 2 ^ (64 * s.length) * (subBorrow s t borrow).2.toNat ∧
      (subBorrow s t borrow).2.toNat ≤ 1 := by
  induction s generalizing t borrow with
  | nil => simp [subBorrow, List.length_eq_zero_iff.mp h.symm, hb]
  | cons s ss ih =>
    cases t with
    | nil => simp at h
    | cons t ts =>
      have hd := Limb.sbb_value s t borrow (.inl hb)
      obtain ⟨hr, hle⟩ := ih ts (Limb.sbb s t borrow).2 (by simpa using h)
        (Limb.sbb_borrow_le s t borrow (.inl hb))
      simp only [subBorrow, val_cons, List.length_cons, pow_limb_succ, Nat.mul_assoc]
      exact ⟨by omega, hle⟩

theorem length_subLimb (s : Units) (v : Limb) : (subLimb s v).1.length = s.length := by
  induction s generalizing v with
  | nil => rfl
  | cons s ss ih => simp [subLimb, ih]

/-- The first step may subtract a whole limb, since nothing else is subtracted with it. -/
theorem subLimb_value (s : Units) (v : Limb) :
    val (subLimb s v).1 + v.toNat = val s + 2 ^ (64 * s.length) * (subLimb s v).2.toNat := by
  induction s generalizing v with
  | nil => simp [subLimb]
  | cons s ss ih =>
    have hd := Limb.sbb_value s v 0 (.inl (by decide))
    have hr := ih (Limb.sbb s v 0).2
    have h0 : (0 : Limb).toNat = 0 := rfl
    simp only [subLimb, val_cons, List.length_cons, pow_limb_succ, Nat.mul_assoc]
    omega

/-! ## Magnitudes -/

theorem add_aligned (long short : Units) (h : short.length ≤ long.length) :
    val ((addCarry (long.take short.length) short 0).1 ++
        (addLimb (long.drop short.length) (addCarry (long.take short.length) short 0).2).1 ++
        [(addLimb (long.drop short.length) (addCarry (long.take short.length) short 0).2).2]) =
      val long + val short := by
  have ht : (long.take short.length).length = short.length := by
    rw [List.length_take, Nat.min_eq_left h]
  have hlow := addCarry_value (long.take short.length) short 0 ht
  have hhigh := addLimb_value (long.drop short.length)
    (addCarry (long.take short.length) short 0).2
  have hs := val_take_drop long short.length h
  have h0 : (0 : Limb).toNat = 0 := rfl
  rw [List.append_assoc, val_append, val_append, length_addCarry _ _ _ ht, length_addLimb,
    val_cons, val_nil, ht, Nat.mul_zero, Nat.add_zero]
  rw [ht] at hlow
  rw [hhigh, Nat.mul_add, hs]
  omega

theorem add_value (s t : Units) : val (add s t) = val s + val t := by
  unfold add
  by_cases h : t.length ≤ s.length
  · simp only [h, if_true]
    exact add_aligned s t h
  · simp only [h, if_false]
    rw [Nat.add_comm]
    exact add_aligned t s (by omega)

theorem length_sub (s t : Units) (h : t.length ≤ s.length) : (sub s t).length = s.length := by
  rw [sub, List.length_append, length_subLimb, length_subBorrow _ _ _ (by simp [h])]
  simp
  omega

/-- No borrow leaves the top, the first magnitude being the larger. -/
theorem sub_value (s t : Units) (hl : t.length ≤ s.length) (hv : val t ≤ val s) :
    val (sub s t) = val s - val t := by
  have ht : (s.take t.length).length = t.length := by
    rw [List.length_take, Nat.min_eq_left hl]
  have hlow := (subBorrow_value (s.take t.length) t 0 ht (by decide)).1
  have hhigh := subLimb_value (s.drop t.length) (subBorrow (s.take t.length) t 0).2
  have hval : val (sub s t) = val (subBorrow (s.take t.length) t 0).1 + 2 ^ (64 * t.length) *
      val (subLimb (s.drop t.length) (subBorrow (s.take t.length) t 0).2).1 := by
    rw [sub, val_append, length_subBorrow _ _ _ ht, ht]
  have hlt := val_lt (sub s t)
  have hs := val_take_drop s t.length hl
  have h0 : (0 : Limb).toNat = 0 := rfl
  have hpow : 2 ^ (64 * t.length) * 2 ^ (64 * (s.drop t.length).length) =
      2 ^ (64 * s.length) := by
    rw [← pow_add, List.length_drop, ← Nat.mul_add, Nat.add_sub_cancel' hl]
  rw [length_sub s t hl] at hlt
  rw [ht] at hlow
  have hscaled := congrArg (2 ^ (64 * t.length) * ·) hhigh
  simp only [Nat.mul_add, ← Nat.mul_assoc, hpow] at hscaled
  generalize (subLimb (s.drop t.length) (subBorrow (s.take t.length) t 0).2).2 = out at hscaled
  have hout : out.toNat = 0 := by
    by_contra hne
    have := Nat.mul_le_mul_left (2 ^ (64 * s.length)) (Nat.one_le_iff_ne_zero.mpr hne)
    omega
  rw [hout] at hscaled
  omega

end CryptoPrimitives.Units
