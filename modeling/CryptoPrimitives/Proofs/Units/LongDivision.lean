import CryptoPrimitives.Proofs.Limb.Choice
import CryptoPrimitives.Proofs.Units.QuotientLimb
import CryptoPrimitives.Proofs.Units.Shift

/-!
# Quotient and remainder of units

The running remainder stays below the divisor, so every window that the long division meets is one
on which its step is exact. Shifting both operands first multiplies the remainder by the same power
of two, and shifting back divides it out.
-/

set_option autoImplicit false

namespace CryptoPrimitives.Units

/-! ## One-limb divisors -/

theorem divLimb_value (us : Units) (d : Limb) (hd : d ≠ 0) :
    val (divLimb us d).1 * d.toNat + (divLimb us d).2.toNat = val us ∧
      (divLimb us d).2.toNat < d.toNat := by
  have hpos : 0 < d.toNat := by
    have hne : d.toNat ≠ 0 := fun h0 => hd (UInt64.toNat_inj.mp h0)
    omega
  induction us with
  | nil => exact ⟨by simp [divLimb], hpos⟩
  | cons u us ih =>
    obtain ⟨hdiv, hlt⟩ := Limb.div_double_value (divLimb us d).2 u d ih.2
    refine ⟨?_, hlt⟩
    have hval := ih.1
    simp only [divLimb, val_cons]
    linarith

theorem length_divLimb (us : Units) (d : Limb) : (divLimb us d).1.length = us.length := by
  induction us with
  | nil => rfl
  | cons u us ih => simp [divLimb, ih]

/-! ## The long division -/

structure Normal (v : Units) : Prop where
  two_le : 2 ≤ v.length
  top_bit : 2 ^ 63 ≤ (v.getD (v.length - 1) 0).toNat

theorem next_window {v rem : Units} (hv : Normal v) (hl : rem.length = v.length)
    (hr : val rem < val v) (u : Limb) : Window v (u :: rem) := by
  refine ⟨hv.two_le, by rw [List.length_cons, hl], hv.top_bit, ?_⟩
  have hu := u.toNat_lt
  rw [val_cons]
  omega

/-! ## Normalization -/

theorem zero_out (x b n out : Nat) (h : x + b * out = n) (hn : n < b) : out = 0 ∧ x = n := by
  have h0 : out = 0 := by
    by_contra hne
    have hle : b ≤ b * out := Nat.le_mul_of_pos_right _ (Nat.pos_of_ne_zero hne)
    omega
  rw [h0, Nat.mul_zero, Nat.add_zero] at h
  exact ⟨h0, h⟩

def normalShift (v : Units) : Nat := 64 - Limb.bitLength (v.getD (v.length - 1) 0)

def normalized (v : Units) : Units := (shiftLeft v (normalShift v)).1

/-- The shift fills the top limb and takes nothing out of it. -/
theorem top_shift (x : Nat) (h0 : x ≠ 0) (h : x < 2 ^ 64) :
    2 ^ 63 ≤ 2 ^ (64 - x.size) * x ∧ 2 ^ (64 - x.size) * (x + 1) ≤ 2 ^ 64 ∧ 64 - x.size < 64 := by
  have hpos : 0 < x.size := Nat.size_pos.mpr (Nat.pos_of_ne_zero h0)
  have hle : x.size ≤ 64 := Nat.size_le.mpr h
  have hlow : 2 ^ (x.size - 1) ≤ x := Nat.lt_size.mp (by omega)
  have hhigh : x + 1 ≤ 2 ^ x.size := Nat.lt_size_self x
  refine ⟨?_, ?_, by omega⟩
  · calc 2 ^ 63 = 2 ^ (64 - x.size) * 2 ^ (x.size - 1) := by
          rw [← pow_add]
          congr 1
          omega
      _ ≤ 2 ^ (64 - x.size) * x := Nat.mul_le_mul_left _ hlow
  · calc 2 ^ (64 - x.size) * (x + 1) ≤ 2 ^ (64 - x.size) * 2 ^ x.size :=
          Nat.mul_le_mul_left _ hhigh
      _ = 2 ^ 64 := by
          rw [← pow_add]
          congr 1
          omega

/-- A divisor with a non-zero top limb is at most `n + 1` limbs wide before and after. -/
theorem normalized_shift (v : Units) (n : Nat) (hl : v.length = n + 1) (htop : v.getD n 0 ≠ 0) :
    normalShift v < 64 ∧ val (normalized v) = 2 ^ normalShift v * val v ∧
      2 ^ 63 * 2 ^ (64 * n) ≤ val (normalized v) := by
  have hne : (v.getD n 0).toNat ≠ 0 := fun h0 => htop (UInt64.toNat_inj.mp h0)
  have hshift : normalShift v = 64 - (v.getD n 0).toNat.size := by
    rw [normalShift, hl, Nat.add_sub_cancel, Limb.bit_length_eq]
  obtain ⟨hlow, hhigh, hlt⟩ := top_shift _ hne (v.getD n 0).toNat_lt
  have hv := one_leading v n hl
  have htake : val (v.take n) < 2 ^ (64 * n) := by
    have hlt := val_lt (v.take n)
    rwa [List.length_take, hl, Nat.min_eq_left (Nat.le_succ _)] at hlt
  rw [← hshift] at hlow hhigh hlt
  have hfit : 2 ^ normalShift v * val v < 2 ^ (64 * v.length) := by
    calc 2 ^ normalShift v * val v
        < 2 ^ normalShift v * (2 ^ (64 * n) * ((v.getD n 0).toNat + 1)) := by
          apply Nat.mul_lt_mul_of_pos_left _ (by positivity)
          rw [Nat.mul_add, Nat.mul_one]
          omega
      _ = 2 ^ (64 * n) * (2 ^ normalShift v * ((v.getD n 0).toNat + 1)) := by ring
      _ ≤ 2 ^ (64 * n) * 2 ^ 64 := Nat.mul_le_mul_left _ hhigh
      _ = 2 ^ (64 * v.length) := by rw [hl, pow_limb_succ, Nat.mul_comm]
  have hval := (zero_out _ _ _ _ (shiftLeft_value v (normalShift v) hlt) hfit).2
  refine ⟨hlt, hval, ?_⟩
  calc 2 ^ 63 * 2 ^ (64 * n) ≤ 2 ^ normalShift v * (v.getD n 0).toNat * 2 ^ (64 * n) :=
        Nat.mul_le_mul_right _ hlow
    _ = 2 ^ normalShift v * (2 ^ (64 * n) * (v.getD n 0).toNat) := by ring
    _ ≤ 2 ^ normalShift v * val v := Nat.mul_le_mul_left _ (by omega)
    _ = val (normalized v) := hval.symm

theorem length_normalized (v : Units) : (normalized v).length = v.length := length_shiftLeft v _

theorem normalized_normal (v : Units) (n : Nat) (hl : v.length = n + 2)
    (htop : v.getD (n + 1) 0 ≠ 0) : Normal (normalized v) := by
  obtain ⟨-, -, hlow⟩ := normalized_shift v (n + 1) hl htop
  have hhigh := val_lt (normalized v)
  rw [length_normalized, hl, pow_limb_succ] at hhigh
  constructor
  · rw [length_normalized]
    omega
  · rw [length_normalized, hl, show n + 2 - 1 = n + 1 by omega, limb_at, Nat.mod_eq_of_lt]
    · exact (Nat.le_div_iff_mul_le (by positivity)).mpr hlow
    · apply Nat.div_lt_of_lt_mul
      rwa [Nat.mul_comm]

def shifted (u v : Units) : Units :=
  (shiftLeft u (normalShift v)).1 ++ [(shiftLeft u (normalShift v)).2]

theorem length_shifted (u v : Units) : (shifted u v).length = u.length + 1 := by
  rw [shifted, List.length_append, length_shiftLeft, List.length_singleton]

theorem shifted_value (u v : Units) (h : normalShift v < 64) :
    val (shifted u v) = 2 ^ normalShift v * val u := by
  rw [shifted, val_append, length_shiftLeft, val_cons, val_nil, Nat.mul_zero, Nat.add_zero]
  exact shiftLeft_value u _ h

/-- The first window lies below the divisor: the shift moves fewer bits than a limb has. -/
theorem first_rest (u v : Units) (n : Nat) (hl : v.length = n + 2)
    (htop : v.getD (n + 1) 0 ≠ 0) (hu : v.length ≤ u.length) :
    ((shifted u v).drop (u.length - v.length + 1)).length = (normalized v).length ∧
      val ((shifted u v).drop (u.length - v.length + 1)) < val (normalized v) := by
  have hpow : 64 * u.length = 64 * (u.length - v.length + 1) + 64 * (n + 1) := by omega
  obtain ⟨hshift, -, hlow⟩ := normalized_shift v (n + 1) hl htop
  have hlen := length_shifted u v
  refine ⟨by rw [List.length_drop, hlen, length_normalized]; omega, ?_⟩
  rw [val_drop _ _ (by omega), shifted_value u v hshift]
  apply Nat.div_lt_of_lt_mul
  calc 2 ^ normalShift v * val u ≤ 2 ^ 63 * val u :=
        Nat.mul_le_mul_right _ (Nat.pow_le_pow_right (by decide) (by omega))
    _ < 2 ^ 63 * 2 ^ (64 * u.length) := Nat.mul_lt_mul_of_pos_left (val_lt u) (by positivity)
    _ = 2 ^ (64 * (u.length - v.length + 1)) * (2 ^ 63 * 2 ^ (64 * (n + 1))) := by
      rw [hpow, pow_add]
      ring
    _ ≤ 2 ^ (64 * (u.length - v.length + 1)) * val (normalized v) := Nat.mul_le_mul_left _ hlow

/-- A dividend that is not below a divisor has at least as many limbs, if its top one counts. -/
theorem length_le_of_not_below (u v : Units) (hv : v.getD (v.length - 1) 0 ≠ 0)
    (h : ¬ compareUneven u v = .lt) : v.length ≤ u.length := by
  by_contra hlen
  obtain ⟨n, hn⟩ : ∃ n, v.length = n + 1 := ⟨v.length - 1, by omega⟩
  have hone := one_leading v n hn
  have hu := val_lt u
  have hne : (v.getD n 0).toNat ≠ 0 := by
    rw [hn, Nat.add_sub_cancel] at hv
    exact fun h0 => hv (UInt64.toNat_inj.mp h0)
  apply h
  rw [compareUneven_lt_iff]
  calc val u < 2 ^ (64 * u.length) := hu
    _ ≤ 2 ^ (64 * n) := Nat.pow_le_pow_right (by decide) (by omega)
    _ ≤ 2 ^ (64 * n) * (v.getD n 0).toNat := Nat.le_mul_of_pos_right _ (by omega)
    _ ≤ val v := by omega

section Long

variable [Rendition]

def longDivideNoted (v : Units) : Units → Units → Recorded Units (Units × Units)
  | [], rem => return ([], rem)
  | u :: us, rem => do
    let (qs, rem) ← longDivideNoted v us rem
    Recorded.note (u :: rem)
    let (q, rem) := quotientLimb v (u :: rem)
    return (q :: qs, rem.take v.length)

theorem longDivideNoted_val (v us rem : Units) :
    (longDivideNoted v us rem).val = longDivide v us rem := by
  induction us with
  | nil => rfl
  | cons u us ih =>
    simp only [longDivideNoted, longDivide, Recorded.val_bind, Recorded.val_pure, ih]

structure Divided (v us rem : Units) (r : Units × Units) : Prop where
  length_quotient : r.1.length = us.length
  length_rest : r.2.length = v.length
  rest_lt : val r.2 < val v
  value : val r.1 * val v + val r.2 = val us + 2 ^ (64 * us.length) * val rem

theorem Divided.step {v us rem : Units} {r : Units × Units} (hv : Normal v)
    (h : Divided v us rem r) (u : Limb) :
    Divided v (u :: us) rem ((quotientLimb v (u :: r.2)).1 :: r.1,
      (quotientLimb v (u :: r.2)).2.take v.length) := by
  have hs := (next_window hv h.length_rest h.rest_lt u).step
  have hpos : 0 < val v := by have := h.rest_lt; omega
  have hmod := Nat.mod_lt (val (u :: r.2)) hpos
  have hrest : val ((quotientLimb v (u :: r.2)).2.take v.length) = val (u :: r.2) % val v := by
    rw [val_take _ _ (by rw [hs.length_rest]; omega), hs.rest]
    exact Nat.mod_eq_of_lt (hmod.trans (val_lt v))
  constructor
  · simp [h.length_quotient]
  · rw [List.length_take, hs.length_rest, Nat.min_eq_left (Nat.le_succ _)]
  · rw [hrest]
    exact hmod
  · have hdiv := Nat.div_add_mod' (val (u :: r.2)) (val v)
    have hval := congrArg (2 ^ 64 * ·) h.value
    rw [hrest, val_cons, hs.digit, List.length_cons, pow_limb_succ, val_cons u us]
    simp only [Nat.mul_add] at hval
    linarith [val_cons u r.2]

theorem longDivide_divided {v rem : Units} (hv : Normal v) (hl : rem.length = v.length)
    (hr : val rem < val v) (us : Units) : Divided v us rem (longDivide v us rem) := by
  induction us with
  | nil => exact ⟨rfl, hl, hr, by simp [longDivide]⟩
  | cons u us ih => exact ih.step hv u

theorem longDivide_windows {v rem : Units} (hv : Normal v) (hl : rem.length = v.length)
    (hr : val rem < val v) (us : Units) :
    ∀ window ∈ (longDivideNoted v us rem).entries, Window v window := by
  induction us with
  | nil => simp [longDivideNoted]
  | cons u us ih =>
    intro window hw
    rw [longDivideNoted, Recorded.entries_bind, List.mem_append] at hw
    rcases hw with hw | hw
    · exact ih window hw
    · have hd := longDivide_divided hv hl hr us
      simp only [longDivideNoted_val, Recorded.note, Recorded.entries_bind,
        Recorded.entries_pure, List.append_nil, List.mem_singleton] at hw
      rw [hw]
      exact next_window hv hd.length_rest hd.rest_lt u

theorem length_longDivide_windows (v us rem : Units) :
    (longDivideNoted v us rem).entries.length = us.length := by
  induction us with
  | nil => rfl
  | cons u us ih => simp [longDivideNoted, Recorded.note, ih]

/-! ## Any divisor -/

def divLongNoted (u v : Units) : Recorded Units (Units × Units) := do
  let (q, rem) ← longDivideNoted (normalized v) ((shifted u v).take (u.length - v.length + 1))
    ((shifted u v).drop (u.length - v.length + 1))
  return (q, (shiftRight rem (normalShift v)).1)

theorem divLongNoted_val (u v : Units) : (divLongNoted u v).val = divLong u v := by
  simp only [divLongNoted, divLong, Recorded.val_bind, Recorded.val_pure, longDivideNoted_val,
    shifted, normalized, normalShift]

def divModNoted (u v : Units) : Recorded Units (Units × Units) :=
  if compareUneven u v = .lt then return ([], u)
  else
    match v with
    | [d] => return ((divLimb u d).1, [(divLimb u d).2])
    | _ => divLongNoted u v

theorem divModNoted_val (u v : Units) : (divModNoted u v).val = divMod u v := by
  unfold divModNoted divMod
  split
  · rfl
  · cases v with
    | nil => exact divLongNoted_val u []
    | cons d ds =>
      cases ds with
      | nil => rfl
      | cons e ds => exact divLongNoted_val u (d :: e :: ds)

theorem divLong_value (u v : Units) (n : Nat) (hl : v.length = n + 2)
    (htop : v.getD (n + 1) 0 ≠ 0) (hu : v.length ≤ u.length) :
    val (divLong u v).1 * val v + val (divLong u v).2 = val u ∧ val (divLong u v).2 < val v := by
  obtain ⟨hshift, hnorm, -⟩ := normalized_shift v (n + 1) hl htop
  obtain ⟨hrl, hrlt⟩ := first_rest u v n hl htop hu
  have hd := longDivide_divided (normalized_normal v n hl htop) hrl hrlt
    ((shifted u v).take (u.length - v.length + 1))
  have hsplit := val_take_drop (shifted u v) (u.length - v.length + 1)
    (by rw [length_shifted]; omega)
  have hval := hd.value
  have hlt := hd.rest_lt
  rw [List.length_take, length_shifted, Nat.min_eq_left (by omega), ← hsplit,
    shifted_value u v hshift, hnorm] at hval
  rw [hnorm] at hlt
  rw [← divLongNoted_val]
  simp only [divLongNoted, Recorded.val_bind, Recorded.val_pure, longDivideNoted_val]
  rw [shiftRight_value _ _ hshift]
  generalize longDivide (normalized v) ((shifted u v).take (u.length - v.length + 1))
    ((shifted u v).drop (u.length - v.length + 1)) = r at *
  have hpos : 0 < 2 ^ normalShift v := by positivity
  have hquot : val r.2 = 2 ^ normalShift v * (val u - val r.1 * val v) := by
    rw [Nat.mul_sub, ← hval]
    have hc : 2 ^ normalShift v * (val r.1 * val v) = val r.1 * (2 ^ normalShift v * val v) := by
      ring
    omega
  have hle : val r.1 * val v ≤ val u := by
    apply Nat.le_of_mul_le_mul_left _ hpos
    calc 2 ^ normalShift v * (val r.1 * val v) = val r.1 * (2 ^ normalShift v * val v) := by ring
      _ ≤ 2 ^ normalShift v * val u := by omega
  rw [hquot] at hlt
  rw [hquot, Nat.mul_div_cancel_left _ hpos]
  exact ⟨by omega, Nat.lt_of_mul_lt_mul_left hlt⟩

theorem divLongNoted_steps (u v : Units) (n : Nat) (hl : v.length = n + 2)
    (htop : v.getD (n + 1) 0 ≠ 0) (hu : v.length ≤ u.length) :
    (∀ window ∈ (divLongNoted u v).entries, Step (normalized v) window) ∧
      (divLongNoted u v).entries.length = u.length - v.length + 1 := by
  obtain ⟨hrl, hrlt⟩ := first_rest u v n hl htop hu
  constructor
  · intro window hw
    simp only [divLongNoted, Recorded.entries_bind, Recorded.entries_pure, List.append_nil] at hw
    exact (longDivide_windows (normalized_normal v n hl htop) hrl hrlt _ window hw).step
  · simp only [divLongNoted, Recorded.entries_bind, Recorded.entries_pure, List.append_nil]
    rw [length_longDivide_windows, List.length_take, length_shifted, Nat.min_eq_left (by omega)]

/-- Every window that a division meets is cut correctly, and a long division meets one for each
limb of its quotient. -/
theorem divModNoted_steps (u v : Units) (hv : v.getD (v.length - 1) 0 ≠ 0) :
    (∀ window ∈ (divModNoted u v).entries, Step (normalized v) window) ∧
      (2 ≤ v.length → val v ≤ val u →
        (divModNoted u v).entries.length = u.length - v.length + 1) := by
  unfold divModNoted
  by_cases hlt : compareUneven u v = .lt
  · have hval := (compareUneven_lt_iff u v).mp hlt
    rw [if_pos hlt]
    exact ⟨by simp, fun _ hle => absurd hle (by omega)⟩
  · have hu := length_le_of_not_below u v hv hlt
    rw [if_neg hlt]
    cases v with
    | nil => simp at hv
    | cons d ds =>
      cases ds with
      | nil => exact ⟨by simp, fun hle => absurd hle (by simp)⟩
      | cons e ds =>
        obtain ⟨hsteps, hcount⟩ := divLongNoted_steps u (d :: e :: ds) ds.length rfl hv hu
        exact ⟨hsteps, fun _ _ => hcount⟩

theorem divMod_value (u v : Units) (hv : v.getD (v.length - 1) 0 ≠ 0) :
    val (divMod u v).1 * val v + val (divMod u v).2 = val u ∧ val (divMod u v).2 < val v := by
  unfold divMod
  by_cases hlt : compareUneven u v = .lt
  · rw [if_pos hlt, val_nil, Nat.zero_mul, Nat.zero_add]
    exact ⟨rfl, (compareUneven_lt_iff u v).mp hlt⟩
  · have hu := length_le_of_not_below u v hv hlt
    rw [if_neg hlt]
    cases v with
    | nil => simp at hv
    | cons d ds =>
      cases ds with
      | nil =>
        obtain ⟨hdiv, hrem⟩ := divLimb_value u d (by simpa using hv)
        simp only [val_cons, val_nil, Nat.mul_zero, Nat.add_zero]
        exact ⟨hdiv, hrem⟩
      | cons e ds => exact divLong_value u (d :: e :: ds) ds.length rfl hv hu

end Long

end CryptoPrimitives.Units
