import CryptoPrimitives.Proofs.Units.Product
import CryptoPrimitives.Recorded
import CryptoPrimitives.Units.Division
import Mathlib.Tactic.Linarith

/-!
# One limb of a long quotient

The window is one limb longer than the divisor, whose top bit is set, and below the divisor times
the base. The estimate from the leading limbs is never below the true quotient limb; corrected by
the second limbs it fits a limb and is at most one above. Multiplying and subtracting then borrows
exactly if it is one above, and adding the divisor back leaves the true remainder.
-/

set_option autoImplicit false

namespace CryptoPrimitives.Units

/-! ## The estimate

`b` is the weight of the lowest of the leading limbs. The window `w` and the divisor `v` are known
by their leading limbs up to less than `b`. -/

structure Leading (b w v : Nat) (top next third vtop vnext : Limb) : Prop where
  window_le : ((top.toNat * 2 ^ 64 + next.toNat) * 2 ^ 64 + third.toNat) * b ≤ w
  window_lt : w < ((top.toNat * 2 ^ 64 + next.toNat) * 2 ^ 64 + third.toNat + 1) * b
  divisor_le : (vtop.toNat * 2 ^ 64 + vnext.toNat) * b ≤ v
  divisor_lt : v < (vtop.toNat * 2 ^ 64 + vnext.toNat + 1) * b
  normal : 2 ^ 63 ≤ vtop.toNat
  below : w < 2 ^ 64 * v

structure Estimate.Sound (w v : Nat) (top next vtop : Limb) (e : Estimate) : Prop where
  split : e.qhat * vtop.toNat + e.rhat = top.toNat * 2 ^ 64 + next.toNat
  least : w < (e.qhat + 1) * v

def Estimate.Settled (vnext third : Limb) (e : Estimate) : Prop :=
  e.tooLarge vnext third = false ∨ 2 ^ 64 ≤ e.rhat

namespace Leading

variable {b w v : Nat} {top next third vtop vnext : Limb}

theorem divisor_top_le (h : Leading b w v top next third vtop vnext) :
    vtop.toNat * (2 ^ 64 * b) ≤ v := by
  calc vtop.toNat * (2 ^ 64 * b) = vtop.toNat * 2 ^ 64 * b := by ring
    _ ≤ (vtop.toNat * 2 ^ 64 + vnext.toNat) * b := Nat.mul_le_mul_right _ (Nat.le_add_right _ _)
    _ ≤ v := h.divisor_le

theorem top_le (h : Leading b w v top next third vtop vnext) : top.toNat ≤ vtop.toNat := by
  have hn := vnext.toNat_lt
  have hlt : top.toNat * (2 ^ 64 * (2 ^ 64 * b)) < (vtop.toNat + 1) * (2 ^ 64 * (2 ^ 64 * b)) := by
    calc top.toNat * (2 ^ 64 * (2 ^ 64 * b)) = top.toNat * 2 ^ 64 * 2 ^ 64 * b := by ring
      _ ≤ ((top.toNat * 2 ^ 64 + next.toNat) * 2 ^ 64 + third.toNat) * b :=
        Nat.mul_le_mul_right _ (by omega)
      _ < 2 ^ 64 * v := lt_of_le_of_lt h.window_le h.below
      _ ≤ 2 ^ 64 * ((vtop.toNat * 2 ^ 64 + vnext.toNat + 1) * b) :=
        Nat.mul_le_mul_left _ h.divisor_lt.le
      _ ≤ 2 ^ 64 * ((vtop.toNat + 1) * 2 ^ 64 * b) :=
        Nat.mul_le_mul_left _ (Nat.mul_le_mul_right _ (by omega))
      _ = (vtop.toNat + 1) * (2 ^ 64 * (2 ^ 64 * b)) := by ring
  exact Nat.lt_succ_iff.mp (Nat.lt_of_mul_lt_mul_right hlt)

theorem first_sound (h : Leading b w v top next third vtop vnext) :
    (Estimate.first top next vtop).Sound w v top next vtop := by
  have hv := h.normal
  have ht := third.toNat_lt
  have hsplit := Nat.div_add_mod' (top.toNat * 2 ^ 64 + next.toNat) vtop.toNat
  have hmod := Nat.mod_lt (top.toNat * 2 ^ 64 + next.toNat) (show 0 < vtop.toNat by omega)
  refine ⟨hsplit, ?_⟩
  set q := (top.toNat * 2 ^ 64 + next.toNat) / vtop.toNat
  calc w < ((top.toNat * 2 ^ 64 + next.toNat) * 2 ^ 64 + third.toNat + 1) * b := h.window_lt
    _ ≤ (top.toNat * 2 ^ 64 + next.toNat + 1) * 2 ^ 64 * b := Nat.mul_le_mul_right _ (by omega)
    _ ≤ (q + 1) * vtop.toNat * 2 ^ 64 * b := by
      apply Nat.mul_le_mul_right
      apply Nat.mul_le_mul_right
      rw [Nat.add_mul, Nat.one_mul]
      omega
    _ = (q + 1) * (vtop.toNat * (2 ^ 64 * b)) := by ring
    _ ≤ (q + 1) * v := Nat.mul_le_mul_left _ h.divisor_top_le

theorem tooLarge_pos {e : Estimate} (ht : e.tooLarge vnext third = true) : 0 < e.qhat := by
  rw [Estimate.tooLarge, Limb.base_eq, Bool.or_eq_true, decide_eq_true_eq, decide_eq_true_eq] at ht
  rcases ht with ht | ht
  · omega
  · exact Nat.pos_of_ne_zero (fun h0 => by simp [h0] at ht)

theorem lower_sound (h : Leading b w v top next third vtop vnext) {e : Estimate}
    (hs : e.Sound w v top next vtop) (ht : e.tooLarge vnext third = true) :
    (e.lower vtop).Sound w v top next vtop := by
  have hpos := tooLarge_pos ht
  obtain ⟨q, hq⟩ : ∃ q, e.qhat = q + 1 := ⟨e.qhat - 1, by omega⟩
  have hsplit := hs.split
  rw [hq, Nat.add_mul, Nat.one_mul] at hsplit
  rw [Estimate.tooLarge, Limb.base_eq, Bool.or_eq_true, decide_eq_true_eq, decide_eq_true_eq,
    hq] at ht
  constructor
  · simp only [Estimate.lower, hq, Nat.add_sub_cancel]
    omega
  · simp only [Estimate.lower, hq, Nat.add_sub_cancel]
    rcases ht with ht | ht
    · calc w < 2 ^ 64 * v := h.below
        _ ≤ (q + 1) * v := Nat.mul_le_mul_right _ ht
    · calc w < ((top.toNat * 2 ^ 64 + next.toNat) * 2 ^ 64 + third.toNat + 1) * b := h.window_lt
        _ ≤ (q + 1) * (vtop.toNat * 2 ^ 64 + vnext.toNat) * b := by
          apply Nat.mul_le_mul_right
          rw [← hsplit, Nat.mul_add, ← Nat.mul_assoc, Nat.add_mul q, Nat.one_mul]
          omega
        _ = (q + 1) * ((vtop.toNat * 2 ^ 64 + vnext.toNat) * b) := by ring
        _ ≤ (q + 1) * v := Nat.mul_le_mul_left _ h.divisor_le

theorem correct_sound (h : Leading b w v top next third vtop vnext) (rounds : Nat) {e : Estimate}
    (hs : e.Sound w v top next vtop) :
    (e.correct vtop vnext third rounds).Sound w v top next vtop := by
  induction rounds generalizing e with
  | zero => exact hs
  | succ rounds ih =>
    unfold Estimate.correct
    by_cases ht : e.tooLarge vnext third = true
    · have hl := h.lower_sound hs ht
      simp only [ht, if_true]
      split
      · exact hl
      · exact ih hl
    · simp only [ht]
      exact hs

/-- A settled estimate fits a limb and is at most one above the true quotient. -/
theorem settled_digit (h : Leading b w v top next third vtop vnext) {e : Estimate}
    (hs : e.Sound w v top next vtop) (ht : e.Settled vnext third) :
    e.qhat < 2 ^ 64 ∧ e.qhat * v ≤ w + v := by
  have hsplit := hs.split
  have htop := h.top_le
  have hnormal := h.normal
  have hnext := next.toNat_lt
  have hvnext := vnext.toNat_lt
  have htest : e.qhat < 2 ^ 64 ∧ e.qhat * vnext.toNat ≤ e.rhat * 2 ^ 64 + third.toNat := by
    rcases ht with ht | ht
    · rw [Estimate.tooLarge, Limb.base_eq, Bool.or_eq_false_iff, decide_eq_false_iff_not,
        decide_eq_false_iff_not] at ht
      omega
    · have hq : e.qhat < 2 ^ 64 := by
        apply Nat.lt_of_mul_lt_mul_right (a := vtop.toNat)
        omega
      have hp : e.qhat * vnext.toNat ≤ 2 ^ 64 * 2 ^ 64 := Nat.mul_le_mul hq.le hvnext.le
      omega
  obtain ⟨hq, hp⟩ := htest
  refine ⟨hq, ?_⟩
  have hlead : e.qhat * ((vtop.toNat * 2 ^ 64 + vnext.toNat) * b) ≤ w := by
    calc e.qhat * ((vtop.toNat * 2 ^ 64 + vnext.toNat) * b)
        = (e.qhat * vtop.toNat * 2 ^ 64 + e.qhat * vnext.toNat) * b := by ring
      _ ≤ ((top.toNat * 2 ^ 64 + next.toNat) * 2 ^ 64 + third.toNat) * b := by
        apply Nat.mul_le_mul_right
        rw [← hsplit]
        omega
      _ ≤ w := h.window_le
  have hslack : e.qhat * b ≤ v := by
    calc e.qhat * b ≤ 2 ^ 64 * b := Nat.mul_le_mul_right _ hq.le
      _ ≤ vtop.toNat * (2 ^ 64 * b) := Nat.le_mul_of_pos_left _ (by omega)
      _ ≤ v := h.divisor_top_le
  calc e.qhat * v ≤ e.qhat * ((vtop.toNat * 2 ^ 64 + vnext.toNat + 1) * b) :=
        Nat.mul_le_mul_left _ h.divisor_lt.le
    _ = e.qhat * ((vtop.toNat * 2 ^ 64 + vnext.toNat) * b) + e.qhat * b := by ring
    _ ≤ w + v := Nat.add_le_add hlead hslack

end Leading

/-! ## How far the correction goes -/

namespace Estimate

variable {vtop vnext third : Limb}

theorem correct_settled (rounds : Nat) (e : Estimate)
    (h : 2 ^ 64 ≤ e.rhat + rounds * vtop.toNat) :
    (e.correct vtop vnext third rounds).Settled vnext third := by
  induction rounds generalizing e with
  | zero =>
    rw [Nat.zero_mul, Nat.add_zero] at h
    exact Or.inr h
  | succ rounds ih =>
    unfold correct
    by_cases ht : e.tooLarge vnext third = true
    · simp only [ht, if_true]
      split
      · next hr => exact Or.inr hr
      · apply ih
        simp only [lower]
        rw [Nat.add_mul, Nat.one_mul] at h
        omega
    · simp only [ht]
      exact Or.inl (Bool.eq_false_iff.mpr ht)

def operands (vnext third : Limb) (e : Estimate) : List Nat :=
  if 2 ^ 64 ≤ e.qhat then [] else [e.qhat * vnext.toNat, e.rhat * 2 ^ 64 + third.toNat]

def tooLargeNoted (vnext third : Limb) (e : Estimate) : Recorded Nat Bool :=
  ⟨e.tooLarge vnext third, e.operands vnext third⟩

def correctNoted (vtop vnext third : Limb) : Nat → Estimate → Recorded Nat Estimate
  | 0, e => return e
  | rounds + 1, e => do
    if ← e.tooLargeNoted vnext third then
      let lowered := e.lower vtop
      if Limb.base ≤ lowered.rhat then return lowered
      else correctNoted vtop vnext third rounds lowered
    else return e

theorem correctNoted_val (rounds : Nat) (e : Estimate) :
    (e.correctNoted vtop vnext third rounds).val = e.correct vtop vnext third rounds := by
  induction rounds generalizing e with
  | zero => rfl
  | succ rounds ih =>
    rw [correctNoted, correct, Recorded.val_bind]
    by_cases ht : e.tooLarge vnext third = true
    · simp only [tooLargeNoted, ht, if_true]
      split
      · rfl
      · exact ih _
    · simp [tooLargeNoted, ht]

/-- More rounds than enough change nothing: the bound on the rounds cuts no correction short. -/
theorem correctNoted_more (rounds more : Nat) (e : Estimate) (hr : e.rhat < 2 ^ 64)
    (h : 2 ^ 64 ≤ e.rhat + rounds * vtop.toNat) :
    e.correctNoted vtop vnext third (rounds + more) = e.correctNoted vtop vnext third rounds := by
  induction rounds generalizing e with
  | zero => omega
  | succ rounds ih =>
    rw [Nat.add_right_comm]
    unfold correctNoted
    by_cases hl : Limb.base ≤ (e.lower vtop).rhat
    · simp only [hl, if_true]
    · have hlow := Nat.lt_of_not_le hl
      rw [Nat.add_mul, Nat.one_mul] at h
      simp only [ih _ hlow (by simp only [lower]; omega)]

theorem operands_lt (e : Estimate) (h : e.rhat < 2 ^ 64) :
    ∀ x ∈ e.operands vnext third, x < 2 ^ 128 := by
  intro x hx
  have hv := vnext.toNat_lt
  have ht := third.toNat_lt
  unfold operands at hx
  split at hx
  · simp at hx
  · next hq =>
    have hp : e.qhat * vnext.toNat ≤ (2 ^ 64 - 1) * 2 ^ 64 :=
      Nat.mul_le_mul (by omega) hv.le
    simp only [List.mem_cons, List.not_mem_nil, or_false] at hx
    omega

theorem correctNoted_entries_lt (rounds : Nat) (e : Estimate) (h : e.rhat < 2 ^ 64) :
    ∀ x ∈ (e.correctNoted vtop vnext third rounds).entries, x < 2 ^ 128 := by
  induction rounds generalizing e with
  | zero => simp [correctNoted]
  | succ rounds ih =>
    intro x hx
    rw [correctNoted, Recorded.entries_bind, List.mem_append] at hx
    rcases hx with hx | hx
    · exact operands_lt e h x hx
    · by_cases ht : e.tooLarge vnext third = true
      · simp only [tooLargeNoted, ht, if_true] at hx
        split at hx
        · simp at hx
        · next hr => exact ih _ (Nat.lt_of_not_le hr) x hx
      · simp [tooLargeNoted, ht] at hx

end Estimate

/-! ## The leading limbs of a window -/

/-- The limbs from a place on, by their number. -/
theorem limb_drop (us : Units) (n i : Nat) : us.getD (n + i) 0 = (us.drop n).getD i 0 := by
  simp [List.getD_eq_getElem?_getD]

theorem one_leading (us : Units) (n : Nat) (h : us.length = n + 1) :
    val us = val (us.take n) + 2 ^ (64 * n) * (us.getD n 0).toNat := by
  have hl : (us.drop n).length = 1 := by
    rw [List.length_drop, h, Nat.add_sub_cancel_left]
  obtain ⟨a, ha⟩ := List.length_eq_one_iff.mp hl
  have h0 := limb_drop us n 0
  rw [Nat.add_zero] at h0
  rw [val_take_drop us n (by omega), h0, ha]
  simp

theorem two_leading (us : Units) (n : Nat) (h : us.length = n + 2) :
    val us = val (us.take n) +
      2 ^ (64 * n) * ((us.getD (n + 1) 0).toNat * 2 ^ 64 + (us.getD n 0).toNat) := by
  have hl : (us.drop n).length = 2 := by
    rw [List.length_drop, h, Nat.add_sub_cancel_left]
  obtain ⟨a, b, hab⟩ := List.length_eq_two.mp hl
  have h0 := limb_drop us n 0
  have h1 := limb_drop us n 1
  rw [Nat.add_zero] at h0
  rw [val_take_drop us n (by omega), h0, h1, hab]
  simp only [List.getD_cons_zero, List.getD_cons_succ, val_cons, val_nil]
  ring

theorem three_leading (us : Units) (n : Nat) (h : us.length = n + 3) :
    val us = val (us.take n) + 2 ^ (64 * n) * (((us.getD (n + 2) 0).toNat * 2 ^ 64 +
      (us.getD (n + 1) 0).toNat) * 2 ^ 64 + (us.getD n 0).toNat) := by
  have hl : (us.drop n).length = 3 := by
    rw [List.length_drop, h, Nat.add_sub_cancel_left]
  obtain ⟨a, b, c, habc⟩ := List.length_eq_three.mp hl
  have h0 := limb_drop us n 0
  have h1 := limb_drop us n 1
  have h2 := limb_drop us n 2
  rw [Nat.add_zero] at h0
  rw [val_take_drop us n (by omega), h0, h1, h2, habc]
  simp only [List.getD_cons_zero, List.getD_cons_succ, val_cons, val_nil]
  ring

theorem leading_bounds (low b x w : Nat) (hl : low < b) (hw : w = low + b * x) :
    x * b ≤ w ∧ w < (x + 1) * b := by
  rw [hw, Nat.add_mul, Nat.one_mul, Nat.mul_comm b]
  omega

structure Window (v window : Units) : Prop where
  two_le : 2 ≤ v.length
  length_eq : window.length = v.length + 1
  normal : 2 ^ 63 ≤ (v.getD (v.length - 1) 0).toNat
  below : val window < 2 ^ 64 * val v

theorem Window.leading {v window : Units} (h : Window v window) :
    Leading (2 ^ (64 * (v.length - 2))) (val window) (val v) (window.getD v.length 0)
      (window.getD (v.length - 1) 0) (window.getD (v.length - 2) 0)
      (v.getD (v.length - 1) 0) (v.getD (v.length - 2) 0) := by
  obtain ⟨n, hn⟩ : ∃ n, v.length = n + 2 := ⟨v.length - 2, by have := h.two_le; omega⟩
  have hnormal := h.normal
  have hv := two_leading v n hn
  have hw := three_leading window n (by rw [h.length_eq, hn])
  have hvlow : val (v.take n) < 2 ^ (64 * n) := by
    have hlt := val_lt (v.take n)
    rwa [List.length_take, Nat.min_eq_left (by omega)] at hlt
  have hwlow : val (window.take n) < 2 ^ (64 * n) := by
    have hlt := val_lt (window.take n)
    rwa [List.length_take, Nat.min_eq_left (by have := h.length_eq; omega)] at hlt
  have hvb := leading_bounds _ _ _ _ hvlow hv
  have hwb := leading_bounds _ _ _ _ hwlow hw
  rw [hn] at hnormal ⊢
  exact ⟨hwb.1, hwb.2, hvb.1, hvb.2, hnormal, h.below⟩

/-! ## Multiply, subtract, add back -/

theorem digit_unique (w v q r : Nat) (hr : r < v) (h : r + q * v = w) : w / v = q ∧ w % v = r := by
  rw [← h, Nat.add_mul_div_right _ _ (by omega), Nat.add_mul_mod_self_right, Nat.div_eq_of_lt hr,
    Nat.mod_eq_of_lt hr, Nat.zero_add]
  exact ⟨rfl, rfl⟩

section Quotient

variable [Rendition]

theorem length_subMul (q : Limb) (ws vs : Units) (carry borrow : Limb)
    (h : ws.length = vs.length) : (subMul q ws vs carry borrow).1.length = vs.length := by
  induction ws generalizing vs carry borrow with
  | nil => simp [subMul, ← h]
  | cons w ws ih =>
    cases vs with
    | nil => simp at h
    | cons v vs => simp [subMul, ih vs _ _ (by simpa using h)]

theorem subMul_value (q : Limb) (ws vs : Units) (carry borrow : Limb)
    (h : ws.length = vs.length) (hb : borrow.toNat ≤ 1) :
    val (subMul q ws vs carry borrow).1 + q.toNat * val vs + carry.toNat + borrow.toNat =
        val ws + 2 ^ (64 * vs.length) * ((subMul q ws vs carry borrow).2.1.toNat +
          (subMul q ws vs carry borrow).2.2.toNat) ∧
      (subMul q ws vs carry borrow).2.2.toNat ≤ 1 := by
  induction ws generalizing vs carry borrow with
  | nil =>
    simp only [List.length_nil] at h
    simp [subMul, List.length_eq_zero_iff.mp h.symm, hb]
  | cons w ws ih =>
    cases vs with
    | nil => simp at h
    | cons v vs =>
      have hmac := Limb.mac_value q v 0 carry
      have hsbb := Limb.sbb_value w (Limb.mac q v 0 carry).1 borrow (Or.inl hb)
      have hle := Limb.sbb_borrow_le w (Limb.mac q v 0 carry).1 borrow (Or.inl hb)
      obtain ⟨hrest, hout⟩ := ih vs (Limb.mac q v 0 carry).2
        (Limb.sbb w (Limb.mac q v 0 carry).1 borrow).2 (by simpa using h) hle
      refine ⟨?_, hout⟩
      simp only [subMul, val_cons, List.length_cons, pow_limb_succ] at *
      rw [UInt64.toNat_zero, Nat.add_zero] at hmac
      linarith

/-- What is left of the window before the divisor is added back, as a number of `n + 1` limbs. -/
theorem window_sub_value (q : Limb) (v window : Units) (h : window.length = v.length + 1) :
    val ((subMul q (window.take v.length) v 0 0).1 ++
        [(Limb.sbb (window.getD v.length 0) (subMul q (window.take v.length) v 0 0).2.1
          (subMul q (window.take v.length) v 0 0).2.2).1]) + q.toNat * val v =
      val window + 2 ^ (64 * (v.length + 1)) *
        (Limb.sbb (window.getD v.length 0) (subMul q (window.take v.length) v 0 0).2.1
          (subMul q (window.take v.length) v 0 0).2.2).2.toNat := by
  have hl : (window.take v.length).length = v.length := by
    rw [List.length_take, h, Nat.min_eq_left (Nat.le_succ _)]
  have hlen := length_subMul q (window.take v.length) v 0 0 hl
  obtain ⟨hval, hout⟩ := subMul_value q (window.take v.length) v 0 0 hl (by decide)
  have hsbb := Limb.sbb_value (window.getD v.length 0)
    (subMul q (window.take v.length) v 0 0).2.1 (subMul q (window.take v.length) v 0 0).2.2
    (Or.inl hout)
  have hwindow := one_leading window v.length h
  simp only [UInt64.toNat_zero, Nat.add_zero] at hval
  rw [val_append, hlen, val_cons, val_nil, Nat.mul_zero, Nat.add_zero, pow_limb_succ, hwindow]
  have hscaled := congrArg (2 ^ (64 * v.length) * ·) hsbb
  simp only [Nat.mul_add] at hscaled hval
  linarith

/-- After a borrow the sum with the divisor wraps around: the top limb comes out as zero, and the
rest as what one divisor less leaves. -/
theorem added_back (w p : Nat) (q d : Limb) (low v : Units) (hl : low.length = v.length)
    (hp : q.toNat = p + 1)
    (hval : val (low ++ [d]) + q.toNat * val v = w + 2 ^ (64 * (v.length + 1)))
    (hmost : q.toNat * val v ≤ w + val v) :
    (d + (addCarry low v 0).2).toNat = 0 ∧ val (addCarry low v 0).1 + p * val v = w := by
  have hsum := addCarry_value low v 0 hl
  have hcarry := addCarry_carry_le low v 0 hl (by decide)
  have hsumlt := val_lt (addCarry low v 0).1
  have hd := d.toNat_lt
  rw [length_addCarry low v 0 hl, hl] at hsumlt
  rw [hl, UInt64.toNat_zero, Nat.add_zero] at hsum
  rw [pow_limb_succ, hp, Nat.add_mul, Nat.one_mul] at hval
  rw [hp, Nat.add_mul, Nat.one_mul] at hmost
  have hlow : val (low ++ [d]) = val low + 2 ^ (64 * v.length) * d.toNat := by
    rw [val_append, hl, val_cons, val_nil, Nat.mul_zero, Nat.add_zero]
  have htop : d.toNat + (addCarry low v 0).2.toNat = 2 ^ 64 := by
    have hge : 2 ^ 64 < d.toNat + (addCarry low v 0).2.toNat + 1 := by
      apply Nat.lt_of_mul_lt_mul_left (a := 2 ^ (64 * v.length))
      rw [Nat.mul_add, Nat.mul_add, Nat.mul_one]
      omega
    omega
  constructor
  · rw [UInt64.toNat_add, htop, Nat.mod_self]
  · have hscaled := congrArg (2 ^ (64 * v.length) * ·) htop
    simp only [Nat.mul_add] at hscaled
    omega

/-- The borrow is set exactly if the estimate was one too large, and then the divisor is added back
and the estimate lowered. -/
theorem settle_digit (w : Nat) (q d b : Limb) (low v : Units) (hl : low.length = v.length)
    (hb : b.toNat ≤ 1)
    (hval : val (low ++ [d]) + q.toNat * val v = w + 2 ^ (64 * (v.length + 1)) * b.toNat)
    (hleast : w < (q.toNat + 1) * val v) (hmost : q.toNat * val v ≤ w + val v) :
    let r := if b = 0 then (q, low ++ [d])
      else (q - 1, (addCarry low v 0).1 ++ [d + (addCarry low v 0).2])
    r.1.toNat = w / val v ∧ val r.2 = w % val v ∧ r.2.length = v.length + 1 := by
  have hlt := val_lt (low ++ [d])
  rw [List.length_append, hl, List.length_singleton] at hlt
  by_cases h0 : b = 0
  · rw [h0, UInt64.toNat_zero, Nat.mul_zero, Nat.add_zero] at hval
    have hu := digit_unique w (val v) q.toNat (val (low ++ [d]))
      (by rw [Nat.add_mul, Nat.one_mul] at hleast; omega) hval
    simp only [h0, if_true]
    exact ⟨hu.1.symm, hu.2.symm, by simp [hl]⟩
  · have h1 : b.toNat = 1 := by
      have hne : b.toNat ≠ 0 := fun hz => h0 (UInt64.toNat_inj.mp hz)
      omega
    rw [h1, Nat.mul_one] at hval
    have hq : q.toNat ≠ 0 := by
      intro hz
      rw [hz, Nat.zero_mul] at hval
      omega
    obtain ⟨p, hp⟩ : ∃ p, q.toNat = p + 1 := ⟨q.toNat - 1, by omega⟩
    obtain ⟨hwrap, hrest⟩ := added_back w p q d low v hl hp hval hmost
    have hu := digit_unique w (val v) p (val (addCarry low v 0).1)
      (by rw [hp, Nat.add_mul, Nat.one_mul] at hval; omega) hrest
    have hdigit : (q - 1).toNat = p := by
      rw [UInt64.toNat_sub_of_le _ _ (UInt64.le_iff_toNat_le.mpr (by rw [UInt64.toNat_one]; omega)),
        hp, UInt64.toNat_one, Nat.add_sub_cancel]
    simp only [h0, if_false]
    refine ⟨hdigit.trans hu.1.symm, ?_, by simp [length_addCarry low v 0 hl, hl]⟩
    rw [val_append, val_cons, hwrap, val_nil, Nat.mul_zero, Nat.add_zero, Nat.mul_zero,
      Nat.add_zero, hu.2]

end Quotient

/-! ## The whole step -/

def firstEstimate (v window : Units) : Estimate :=
  Estimate.first (window.getD v.length 0) (window.getD (v.length - 1) 0)
    (v.getD (v.length - 1) 0)

def corrected (v window : Units) (rounds : Nat) : Recorded Nat Estimate :=
  (firstEstimate v window).correctNoted (v.getD (v.length - 1) 0) (v.getD (v.length - 2) 0)
    (window.getD (v.length - 2) 0) rounds

/-- What one step of the long division does to a window: however long the correction may run, its
estimate fits a limb and nothing that its tests compute leaves a double limb; the quotient limb and
what is left of the window are the true ones. -/
structure Step [Rendition] (v window : Units) : Prop where
  estimated : (corrected v window 2).val = estimate (window.getD v.length 0)
    (window.getD (v.length - 1) 0) (window.getD (v.length - 2) 0) (v.getD (v.length - 1) 0)
    (v.getD (v.length - 2) 0)
  estimate_lt : (corrected v window 2).val.qhat < 2 ^ 64
  rounds_enough : ∀ more, corrected v window (2 + more) = corrected v window 2
  operands_lt : ∀ x ∈ (corrected v window 2).entries, x < 2 ^ 128
  digit : (quotientLimb v window).1.toNat = val window / val v
  rest : val (quotientLimb v window).2 = val window % val v
  rest_lt : val (quotientLimb v window).2 < val v
  length_rest : (quotientLimb v window).2.length = v.length + 1

theorem corrected_estimate (v window : Units) :
    (corrected v window 2).val = estimate (window.getD v.length 0)
      (window.getD (v.length - 1) 0) (window.getD (v.length - 2) 0) (v.getD (v.length - 1) 0)
      (v.getD (v.length - 2) 0) :=
  Estimate.correctNoted_val 2 _

variable [Rendition]

theorem quotientLimb_eq (v window : Units) (q : Limb)
    (hq : (corrected v window 2).val.qhat.toUInt64 = q) :
    quotientLimb v window =
      let low := (subMul q (window.take v.length) v 0 0).1
      let db := Limb.sbb (window.getD v.length 0) (subMul q (window.take v.length) v 0 0).2.1
        (subMul q (window.take v.length) v 0 0).2.2
      if db.2 = 0 then (q, low ++ [db.1])
      else (q - 1, (addCarry low v 0).1 ++ [db.1 + (addCarry low v 0).2]) := by
  rw [corrected_estimate] at hq
  simp only [quotientLimb, hq]

theorem Window.step {v window : Units} (h : Window v window) : Step v window := by
  have hlead := h.leading
  have hnormal := h.normal
  have hrhat : (firstEstimate v window).rhat < 2 ^ 64 := by
    have hv := (v.getD (v.length - 1) 0).toNat_lt
    exact (Nat.mod_lt _ (by omega)).trans hv
  have hrounds : 2 ^ 64 ≤ (firstEstimate v window).rhat +
      2 * (v.getD (v.length - 1) 0).toNat := by
    omega
  obtain ⟨hlt, hmost⟩ := hlead.settled_digit (hlead.correct_sound 2 hlead.first_sound)
    (Estimate.correct_settled 2 _ hrounds)
  have hleast := (hlead.correct_sound 2 hlead.first_sound).least
  have hval : (corrected v window 2).val = (firstEstimate v window).correct
      (v.getD (v.length - 1) 0) (v.getD (v.length - 2) 0) (window.getD (v.length - 2) 0) 2 :=
    Estimate.correctNoted_val 2 _
  rw [← firstEstimate, ← hval] at hlt hmost hleast
  have hq : (corrected v window 2).val.qhat.toUInt64.toNat = (corrected v window 2).val.qhat := by
    simp only [Nat.toUInt64_eq, UInt64.toNat_ofNat']
    exact Nat.mod_eq_of_lt hlt
  have htake : (window.take v.length).length = v.length := by
    rw [List.length_take, h.length_eq, Nat.min_eq_left (Nat.le_succ _)]
  have hsettle := settle_digit (val window) _ _ _ _ v (length_subMul _ _ v 0 0 htake)
    (Limb.sbb_borrow_le _ _ _ (Or.inl (subMul_value _ _ v 0 0 htake (by decide)).2))
    (window_sub_value (corrected v window 2).val.qhat.toUInt64 v window h.length_eq)
    (by rwa [hq]) (by rwa [hq])
  rw [← quotientLimb_eq v window _ rfl] at hsettle
  have hrest : val window % val v < val v := by
    have hbelow := h.below
    exact Nat.mod_lt _ (by omega)
  exact ⟨corrected_estimate v window, hlt,
    fun more => Estimate.correctNoted_more 2 more _ hrhat hrounds,
    Estimate.correctNoted_entries_lt 2 _ hrhat, hsettle.1, hsettle.2.1,
    hsettle.2.1 ▸ hrest, hsettle.2.2⟩

end CryptoPrimitives.Units
