import CryptoPrimitives.Proofs.Units.Product
import CryptoPrimitives.Units.Montgomery
import Mathlib.Data.Int.ModEq
import Mathlib.Tactic.Linarith
import Mathlib.Tactic.LinearCombination

/-!
# Montgomery products of units

The limb that clears the lowest limb of the accumulator comes from Newton's iteration, which doubles
the correct low bits. A round multiplies the accumulator's value by no more than it divides, so it
stays below the first operand plus the modulus, and one subtraction finishes.
-/

set_option autoImplicit false

namespace CryptoPrimitives

/-! ## The inverse of an odd limb -/

namespace Limb

theorem mul_modEq (a b : Limb) : ((a * b).toNat : Int) ≡ a.toNat * b.toNat [ZMOD 2 ^ 64] := by
  rw [UInt64.toNat_mul, Int.natCast_mod, Nat.cast_mul]
  exact Int.mod_modEq _ _

theorem sub_modEq (a b : Limb) : ((a - b).toNat : Int) ≡ a.toNat - b.toNat [ZMOD 2 ^ 64] := by
  have hb := b.toNat_lt
  rw [UInt64.toNat_sub, Int.natCast_mod]
  apply (Int.mod_modEq _ _).trans
  rw [Nat.cast_add, Nat.cast_sub hb.le]
  apply Int.modEq_iff_dvd.mpr
  exact ⟨-1, by push_cast; ring⟩

def InverseTo (bits : Nat) (n0 x : Limb) : Prop :=
  (2 : Int) ^ bits ∣ n0.toNat * x.toNat - 1

theorem odd_self_inverse (n0 : Limb) (h : n0.toNat % 2 = 1) : InverseTo 3 n0 n0 := by
  obtain ⟨k, hk⟩ : ∃ k, n0.toNat = 2 * k + 1 := ⟨n0.toNat / 2, by omega⟩
  obtain ⟨j, hj⟩ := Nat.even_mul_succ_self k
  refine ⟨(j : Int), ?_⟩
  rw [hk]
  have hcast : (k : Int) * (k + 1) = j + j := by exact_mod_cast hj
  push_cast
  linear_combination 4 * hcast

/-- One step doubles the correct bits, up to the width of a limb. -/
theorem inverseStep_doubles (n0 x : Limb) (bits more : Nat) (h : InverseTo bits n0 x)
    (hmore : more ≤ 2 * bits) (hwidth : more ≤ 64) : InverseTo more n0 (inverseStep n0 x) := by
  obtain ⟨d, hd⟩ := h
  have hstep : ((inverseStep n0 x).toNat : Int) ≡
      x.toNat * (2 - n0.toNat * x.toNat) [ZMOD 2 ^ 64] := by
    apply (mul_modEq _ _).trans
    apply Int.ModEq.mul_left
    apply (sub_modEq _ _).trans
    exact Int.ModEq.sub rfl (mul_modEq n0 x)
  have hprod := (hstep.mul_left n0.toNat).sub (Int.ModEq.refl 1)
  have hnarrow := hprod.of_dvd (pow_dvd_pow 2 hwidth)
  apply (Int.ModEq.dvd_iff hnarrow).mpr
  have hsquare : (n0.toNat : Int) * (x.toNat * (2 - n0.toNat * x.toNat)) - 1 =
      2 ^ (2 * bits) * -(d * d) := by
    rw [Nat.two_mul, pow_add]
    linear_combination (-(n0.toNat : Int) * x.toNat + 1 - 2 ^ bits * d) * hd
  rw [hsquare]
  exact Dvd.dvd.mul_right (pow_dvd_pow 2 hmore) _

theorem newton_inverse (n0 : Limb) (h : n0.toNat % 2 = 1) (steps : Nat) :
    InverseTo (min (3 * 2 ^ steps) 64) n0
      ((List.range steps).foldl (fun x _ => inverseStep n0 x) n0) := by
  induction steps with
  | zero => exact odd_self_inverse n0 h
  | succ steps ih =>
    rw [List.range_succ, List.foldl_append, List.foldl_cons, List.foldl_nil]
    apply inverseStep_doubles n0 _ _ _ ih
    · rw [pow_succ]
      omega
    · exact Nat.min_le_right _ _

theorem negInverse_value (n0 : Limb) (h : n0.toNat % 2 = 1) :
    (n0.toNat * (negInverse n0).toNat + 1) % 2 ^ 64 = 0 := by
  have hinv : InverseTo 64 n0 ((List.range 6).foldl (fun x _ => inverseStep n0 x) n0) :=
    newton_inverse n0 h 6
  obtain ⟨d, hd⟩ := hinv
  have hneg := ((sub_modEq 0 ((List.range 6).foldl (fun x _ => inverseStep n0 x) n0)).mul_left
    n0.toNat).add_right 1
  have hdvd : (2 : Int) ^ 64 ∣ n0.toNat * (negInverse n0).toNat + 1 := by
    apply (Int.ModEq.dvd_iff hneg).mpr
    exact ⟨-d, by rw [UInt64.toNat_zero, Nat.cast_zero]; linear_combination -hd⟩
  apply Nat.mod_eq_zero_of_dvd
  exact_mod_cast hdvd

end Limb

namespace Units

/-! ## Rounds -/

def MontgomeryAcc.val (t : MontgomeryAcc) : Nat :=
  Units.val t.limbs + 2 ^ (64 * t.limbs.length) * t.top.toNat

def Clears (n : Units) (nPrime : Limb) : Prop :=
  ((n.headD 0).toNat * nPrime.toNat + 1) % 2 ^ 64 = 0

theorem head_value (us : Units) (h : us ≠ []) :
    val us = (us.headD 0).toNat + 2 ^ 64 * val us.tail := by
  cases us with
  | nil => exact absurd rfl h
  | cons u us => rfl

/-- The multiple of the modulus that a round adds leaves nothing in the lowest limb. -/
theorem lowest_cleared (n sum cleared : Units) (nPrime carry : Limb) (hn : Clears n nPrime)
    (hne : n ≠ []) (hs : sum.length = n.length) (hl : cleared.length = n.length)
    (hv : val cleared + 2 ^ (64 * n.length) * carry.toNat =
      val sum + val n * (sum.headD 0 * nPrime).toNat) :
    cleared.headD 0 = 0 := by
  obtain ⟨m, hm⟩ : ∃ m, n.length = m + 1 :=
    ⟨n.length - 1, by have := List.length_pos_of_ne_nil hne; omega⟩
  have hsne : sum ≠ [] := List.ne_nil_of_length_pos (by omega)
  have hcne : cleared ≠ [] := List.ne_nil_of_length_pos (by omega)
  have hhead := (cleared.headD 0).toNat_lt
  obtain ⟨e, he⟩ := Nat.dvd_of_mod_eq_zero hn
  have hq := Nat.div_add_mod ((sum.headD 0).toNat * nPrime.toNat) (2 ^ 64)
  rw [← UInt64.toNat_mul] at hq
  rw [hm, pow_limb_succ, head_value cleared hcne, head_value sum hsne, head_value n hne] at hv
  -- Modulo the base the head is that of `sum` times one more than the product that `Clears` names.
  have hdvd : (2 : Int) ^ 64 ∣ (cleared.headD 0).toNat := by
    have hv' : (((cleared.headD 0).toNat + 2 ^ 64 * val cleared.tail +
        2 ^ 64 * 2 ^ (64 * m) * carry.toNat : Nat) : Int) = _ := congrArg Nat.cast hv
    have hq' : ((2 ^ 64 * ((sum.headD 0).toNat * nPrime.toNat / 2 ^ 64) +
        (sum.headD 0 * nPrime).toNat : Nat) : Int) = _ := congrArg Nat.cast hq
    have he' : (((n.headD 0).toNat * nPrime.toNat + 1 : Nat) : Int) = _ := congrArg Nat.cast he
    simp only [Nat.cast_add, Nat.cast_mul, Nat.cast_pow, Nat.cast_ofNat, Nat.cast_one]
      at hv' hq' he'
    refine ⟨(sum.headD 0).toNat * e + val sum.tail + val n.tail * (sum.headD 0 * nPrime).toNat -
      (n.headD 0).toNat * ((sum.headD 0).toNat * nPrime.toNat / 2 ^ 64 : Nat) - val cleared.tail -
      2 ^ (64 * m) * carry.toNat, ?_⟩
    linear_combination hv' + (n.headD 0).toNat * hq' + (sum.headD 0).toNat * he'
  have hzero : (cleared.headD 0).toNat = 0 :=
    Nat.eq_zero_of_dvd_of_lt (by exact_mod_cast hdvd) hhead
  exact UInt64.toNat_inj.mp hzero

theorem acc_zero (n : Units) : (⟨zeros n.length, 0⟩ : MontgomeryAcc).val = 0 := by
  rw [MontgomeryAcc.val, val_zeros, UInt64.toNat_zero, Nat.mul_zero]

/-- The bound that every round keeps. -/
theorem round_lt (T T' A N b q : Nat) (hT : T < A + N) (hb : b < 2 ^ 64) (hq : q < 2 ^ 64)
    (hr : 2 ^ 64 * T' = T + A * b + q * N) : T' < A + N := by
  apply Nat.lt_of_mul_lt_mul_left (a := 2 ^ 64)
  have hA : A * b ≤ A * (2 ^ 64 - 1) := Nat.mul_le_mul_left _ (by omega)
  have hN : q * N ≤ (2 ^ 64 - 1) * N := Nat.mul_le_mul_right _ (by omega)
  omega

/-- The rounds add fewer than `R` multiples of the modulus, so it is enough that the second operand
is reduced. -/
theorem product_lt_twice (R T A B k N : Nat) (hA : A < R) (hk : k < R) (hN : 0 < N) (hB : B < N)
    (hr : R * T = A * B + k * N) : T < 2 * N := by
  apply Nat.lt_of_mul_lt_mul_left (a := R)
  calc R * T = A * B + k * N := hr
    _ < R * N + R * N := Nat.add_lt_add_of_le_of_lt (Nat.mul_le_mul hA.le hB.le)
        (Nat.mul_lt_mul_of_pos_right hk hN)
    _ = R * (2 * N) := by ring

/-! ## Table scans -/

theorem scan_from (table : List Units) (index m : Nat) (hm : ∀ e ∈ table, e.length = m)
    (k : Nat) (buffer : Units) (hb : buffer.length = m) :
    (table.zipIdx k).foldl (fun held entry => assignIf (entry.2 == index) held entry.1) buffer =
      if k ≤ index then table.getD (index - k) buffer else buffer := by
  induction table generalizing k buffer with
  | nil => simp
  | cons e es ih =>
    have he : e.length = m := hm e (List.mem_cons_self)
    have hes : ∀ x ∈ es, x.length = m := fun x hx => hm x (List.mem_cons_of_mem _ hx)
    rw [List.zipIdx_cons, List.foldl_cons, assignIf_eq _ _ _ (by rw [hb, he])]
    by_cases hk : k = index
    · subst hk
      rw [ih hes (k + 1) _ (by simp [he])]
      simp
    · rw [if_neg (by simpa using hk), ih hes (k + 1) buffer hb]
      by_cases hle : k ≤ index
      · obtain ⟨j, hj⟩ : ∃ j, index - k = j + 1 := ⟨index - k - 1, by omega⟩
        rw [if_pos hle, if_pos (by omega), hj, List.getD_cons_succ,
          show index - (k + 1) = j by omega]
      · rw [if_neg hle, if_neg (by omega)]

/-- The scan ends with the entry whatever the buffer held. -/
theorem scanSelect_eq (table : List Units) (index m : Nat) (buffer : Units)
    (hm : ∀ e ∈ table, e.length = m) (hb : buffer.length = m) (hi : index < table.length) :
    scanSelect table index buffer = table.getD index [] := by
  rw [scanSelect, scan_from table index m hm 0 buffer hb, if_pos (Nat.zero_le _), Nat.sub_zero]
  simp [List.getD_eq_getElem?_getD, List.getElem?_eq_getElem hi]

section Products

variable [Rendition]

/-- One round: a limb's multiple of `a` and a multiple of the modulus are added, and the lowest
limb, then zero, is dropped. -/
theorem round_value (n a : Units) (nPrime b : Limb) (t : MontgomeryAcc) (hn : Clears n nPrime)
    (hne : n ≠ []) (ha : a.length = n.length) (ht : t.limbs.length = n.length) :
    (montgomeryRound n nPrime a t b).limbs.length = n.length ∧
      ∃ q < 2 ^ 64, 2 ^ 64 * (montgomeryRound n nPrime a t b).val =
        t.val + val a * b.toNat + q * val n := by
  obtain ⟨m, hm⟩ : ∃ m, n.length = m + 1 :=
    ⟨n.length - 1, by have := List.length_pos_of_ne_nil hne; omega⟩
  unfold montgomeryRound
  have hsum := addMulCarry_value t.limbs a b 0 (by rw [ht, ha])
  have hsuml := length_addMulCarry t.limbs a b 0 (by rw [ht, ha])
  rw [ha] at hsum hsuml
  generalize addMulCarry t.limbs a b 0 = sumc at *
  obtain ⟨sum, c⟩ := sumc
  dsimp only at hsum hsuml ⊢
  have htop := Limb.adc_value t.top c 0
  generalize Limb.adc t.top c 0 = topc at *
  obtain ⟨top, spill⟩ := topc
  dsimp only at htop ⊢
  have hcleared := addMulCarry_value sum n (sum.headD 0 * nPrime) 0 hsuml
  have hclearedl := length_addMulCarry sum n (sum.headD 0 * nPrime) 0 hsuml
  have hzero := lowest_cleared n sum (addMulCarry sum n (sum.headD 0 * nPrime) 0).1 nPrime
    (addMulCarry sum n (sum.headD 0 * nPrime) 0).2 hn hne hsuml hclearedl hcleared
  have hq := (sum.headD 0 * nPrime).toNat_lt
  generalize sum.headD 0 * nPrime = q at *
  generalize addMulCarry sum n q 0 = clearedc at *
  obtain ⟨cleared, c'⟩ := clearedc
  dsimp only at hcleared hclearedl hzero ⊢
  have hlow : val cleared = 2 ^ 64 * val cleared.tail := by
    have hcne : cleared ≠ [] := List.ne_nil_of_length_pos (by omega)
    rw [head_value cleared hcne, hzero, UInt64.toNat_zero, Nat.zero_add]
  have hnext := Limb.adc_value top c' 0
  generalize Limb.adc top c' 0 = nextc at *
  obtain ⟨next, c2⟩ := nextc
  dsimp only at hnext ⊢
  have htaill : cleared.tail.length = m := by
    rw [List.length_tail, hclearedl, hm, Nat.add_sub_cancel]
  simp only [UInt64.toNat_zero, Nat.add_zero, hm, pow_limb_succ] at hsum htop hcleared hnext hlow
  have hspill : (spill + c2).toNat = spill.toNat + c2.toNat := by
    have h1 := t.top.toNat_lt
    have h2 := c.toNat_lt
    have h3 := top.toNat_lt
    have h4 := c'.toNat_lt
    rw [UInt64.toNat_add]
    omega
  constructor
  · rw [List.length_append, htaill, List.length_singleton, hm]
  · refine ⟨q.toNat, hq, ?_⟩
    simp only [MontgomeryAcc.val, val_append, val_cons, val_nil, List.length_append, htaill,
      List.length_singleton, hspill, Nat.mul_zero, Nat.add_zero, ht, hm, pow_limb_succ]
    have htop' := congrArg (2 ^ 64 * 2 ^ (64 * m) * ·) htop
    have hnext' := congrArg (2 ^ 64 * 2 ^ (64 * m) * ·) hnext
    simp only [Nat.mul_add] at htop' hnext' hcleared hsum ⊢
    linarith

/-- The rounds over the limbs of `bs`: the product with `a` and a multiple of the modulus are in the
accumulator, divided by the base once for each limb. -/
theorem rounds_value (n a : Units) (nPrime : Limb) (hn : Clears n nPrime) (hne : n ≠ [])
    (ha : a.length = n.length) (bs : Units) (t : MontgomeryAcc)
    (ht : t.limbs.length = n.length) (hlt : t.val < val a + val n) :
    (bs.foldl (montgomeryRound n nPrime a) t).limbs.length = n.length ∧
      (bs.foldl (montgomeryRound n nPrime a) t).val < val a + val n ∧
      ∃ k < 2 ^ (64 * bs.length),
        2 ^ (64 * bs.length) * (bs.foldl (montgomeryRound n nPrime a) t).val =
          t.val + val a * val bs + k * val n := by
  induction bs generalizing t with
  | nil => exact ⟨ht, hlt, 0, by simp, by simp⟩
  | cons b bs ih =>
    obtain ⟨hl, q, hq, hr⟩ := round_value n a nPrime b t hn hne ha ht
    have hbound := round_lt _ _ _ _ _ _ hlt b.toNat_lt hq hr
    obtain ⟨hl', hlt', k, hkr, hk⟩ := ih _ hl hbound
    refine ⟨hl', hlt', q + 2 ^ 64 * k, ?_, ?_⟩
    · rw [List.length_cons, pow_limb_succ]
      have hroom : 2 ^ 64 * (k + 1) ≤ 2 ^ 64 * 2 ^ (64 * bs.length) := Nat.mul_le_mul_left _ hkr
      omega
    · rw [List.foldl_cons, List.length_cons, pow_limb_succ, Nat.mul_assoc, hk, val_cons]
      rw [Nat.mul_add, Nat.mul_add, hr]
      ring

/-! ## The last subtraction -/

/-- Below `R` and the modulus together, one subtraction leaves what the limbs hold. -/
theorem finish_value (n : Units) (t : MontgomeryAcc) (ht : t.limbs.length = n.length)
    (hlt : t.val < 2 ^ (64 * n.length) + val n) :
    (montgomeryFinish n t).length = n.length ∧
      val (montgomeryFinish n t) = if t.val < val n then t.val else t.val - val n := by
  have hsub := subBorrow_value t.limbs n 0 ht (by decide)
  have hsubl := length_subBorrow t.limbs n 0 ht
  have hlimbs := val_lt t.limbs
  have hn := val_lt n
  unfold montgomeryFinish
  generalize subBorrow t.limbs n 0 = reduced at *
  obtain ⟨reduced, borrow⟩ := reduced
  dsimp only at hsub hsubl ⊢
  have hsbb := Limb.sbb_value t.top 0 borrow (Or.inr rfl)
  have hle := Limb.sbb_borrow_le t.top 0 borrow (Or.inr rfl)
  generalize Limb.sbb t.top 0 borrow = last at *
  obtain ⟨d, last⟩ := last
  dsimp only at hsbb hle ⊢
  obtain ⟨hval, hborrow⟩ := hsub
  rw [assignIf_eq _ _ _ hsubl]
  rw [MontgomeryAcc.val, ht] at hlt ⊢
  rw [UInt64.toNat_zero, Nat.add_zero] at hval hsbb
  rw [ht] at hval hlimbs
  have hd := d.toNat_lt
  have hr := val_lt reduced
  rw [hsubl, ht] at hr
  by_cases h0 : last = 0
  · rw [if_neg (by simp [h0])]
    rw [h0, UInt64.toNat_zero, Nat.mul_zero, Nat.add_zero] at hsbb
    obtain ⟨extra, hextra⟩ : ∃ k, t.top.toNat = borrow.toNat + k :=
      ⟨t.top.toNat - borrow.toNat, by omega⟩
    rw [hextra, Nat.mul_add] at hlt ⊢
    have hk : extra = 0 := by
      by_contra hne
      have hge : 2 ^ (64 * n.length) ≤ 2 ^ (64 * n.length) * extra :=
        Nat.le_mul_of_pos_right _ (by omega)
      omega
    rw [hk, Nat.mul_zero, Nat.add_zero] at hlt ⊢
    have hsum : val t.limbs + 2 ^ (64 * n.length) * borrow.toNat = val reduced + val n := by
      omega
    rw [hsum, if_neg (by omega), Nat.add_sub_cancel]
    exact ⟨hsubl.trans ht, rfl⟩
  · rw [if_pos (by simp [h0])]
    have h1 : last.toNat ≠ 0 := fun hz => h0 (UInt64.toNat_inj.mp hz)
    have htop : t.top.toNat = 0 ∧ borrow.toNat = 1 := by omega
    rw [htop.2, Nat.mul_one] at hval
    rw [htop.1, Nat.mul_zero, Nat.add_zero, if_pos (by omega)]
    exact ⟨ht, rfl⟩

theorem finish_modEq (n : Units) (t : MontgomeryAcc) (ht : t.limbs.length = n.length)
    (hlt : t.val < 2 ^ (64 * n.length) + val n) :
    val (montgomeryFinish n t) ≡ t.val [MOD val n] := by
  rw [(finish_value n t ht hlt).2]
  split
  · rfl
  · exact (Nat.modEq_iff_dvd' (Nat.sub_le _ _)).mpr ⟨1, by omega⟩

/-! ## The product -/

/-- All rounds together, from nothing. -/
theorem montgomeryRounds_value (n a b : Units) (nPrime : Limb) (hn : Clears n nPrime)
    (hne : n ≠ []) (ha : a.length = n.length) (hb : b.length = n.length) (hpos : 0 < val n) :
    (montgomeryRounds n nPrime a b).limbs.length = n.length ∧
      (montgomeryRounds n nPrime a b).val < val a + val n ∧
      ∃ k < 2 ^ (64 * n.length),
        2 ^ (64 * n.length) * (montgomeryRounds n nPrime a b).val = val a * val b + k * val n := by
  have hrounds := rounds_value n a nPrime hn hne ha b ⟨zeros n.length, 0⟩ (length_zeros _)
    (by rw [acc_zero]; omega)
  rw [acc_zero, Nat.zero_add, hb] at hrounds
  exact hrounds

/-- The product divided by `R`, for any operands as long as the modulus; it is reduced if one of
them is. -/
theorem montgomeryMul_value (n a b : Units) (nPrime : Limb) (hn : Clears n nPrime) (hne : n ≠ [])
    (ha : a.length = n.length) (hb : b.length = n.length) (hpos : 0 < val n) :
    (montgomeryMul n nPrime a b).length = n.length ∧
      val (montgomeryMul n nPrime a b) * 2 ^ (64 * n.length) ≡ val a * val b [MOD val n] ∧
      (val a < val n ∨ val b < val n → val (montgomeryMul n nPrime a b) < val n) := by
  obtain ⟨hl, hbound, k, hkr, hk⟩ := montgomeryRounds_value n a b nPrime hn hne ha hb hpos
  have har : val a < 2 ^ (64 * n.length) := ha ▸ val_lt a
  have hfits : (montgomeryRounds n nPrime a b).val < 2 ^ (64 * n.length) + val n := by omega
  obtain ⟨hfl, hfv⟩ := finish_value n _ hl hfits
  refine ⟨hfl, ?_, fun hlt => ?_⟩
  · calc val (montgomeryMul n nPrime a b) * 2 ^ (64 * n.length)
        ≡ (montgomeryRounds n nPrime a b).val * 2 ^ (64 * n.length) [MOD val n] :=
          (finish_modEq n _ hl hfits).mul_right _
      _ = val a * val b + k * val n := by rw [Nat.mul_comm]; exact hk
      _ ≡ val a * val b [MOD val n] := Nat.add_mul_modulus_modEq_iff.mpr rfl
  · have htwice : (montgomeryRounds n nPrime a b).val < 2 * val n := by
      rcases hlt with hlt | hlt
      · omega
      · exact product_lt_twice _ _ _ _ _ _ har hkr hpos hlt hk
    rw [montgomeryMul, hfv]
    split <;> omega

end Products

end Units

end CryptoPrimitives
