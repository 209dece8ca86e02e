import CryptoPrimitives.Proofs.Units.Prefix
import Mathlib.Order.Bounds.Defs

/-!
# The order and the measures of units

Everything that is measured on stated limbs is a function of their value: two lists are in the order
of their values, whatever their lengths, and the significant limbs, the bits and the test for zero
count what the value needs. So the laws of the order are those of the natural numbers.
-/

set_option autoImplicit false

namespace CryptoPrimitives.Units

/-! ## Measures as least numbers -/

theorem significant_isLeast (us : Units) : IsLeast {k | val us < 2 ^ (64 * k)} (significant us) :=
  ⟨(significant_le_iff us _).mp (le_refl _), fun k hk => (significant_le_iff us k).mpr hk⟩

theorem bitLength_isLeast (us : Units) : IsLeast {k | val us < 2 ^ k} (bitLength us) := by
  rw [bit_length_eq]
  exact ⟨Nat.size_le.mp (le_refl _), fun k hk => Nat.size_le.mpr hk⟩

theorem isZero_iff (us : Units) : isZero us = true ↔ val us = 0 := by
  rw [isZero_eq, decide_eq_true_eq]

theorem bitLength_eq_zero_iff (us : Units) : bitLength us = 0 ↔ val us = 0 := by
  rw [bit_length_eq, Nat.size_eq_zero]

/-! ## The order -/

theorem orderOf_eq (a b : Nat) : orderOf a b .eq = Ord.compare a b := by
  rw [Nat.compare_eq_ite_lt, orderOf]

theorem compareUneven_value (s t : Units) : compareUneven s t = Ord.compare (val s) (val t) := by
  rw [compareUneven_eq, orderOf_eq]

theorem compare_value (s t : Units) (h : s.length = t.length) :
    compare s t = Ord.compare (val s) (val t) := by
  rw [compare_eq s t h, orderOf_eq]

instance compareUneven_trans : Std.TransCmp compareUneven where
  eq_swap := by
    intro s t
    rw [compareUneven_value, compareUneven_value]
    exact Std.OrientedCmp.eq_swap
  isLE_trans := by
    intro s t u hst htu
    rw [compareUneven_value] at hst htu ⊢
    exact Std.TransCmp.isLE_trans hst htu

theorem val_append_zeros (us : Units) (k : Nat) : val (us ++ zeros k) = val us := by
  rw [val_append, val_zeros, Nat.mul_zero, Nat.add_zero]

/-- Limbs in the first place are equal to others in the last if both stand in one order with those
between them, and only then. -/
theorem compareUneven_eq_between {s t u : Units} (hst : (compareUneven s t).isLE)
    (htu : (compareUneven t u).isLE) :
    compareUneven s u = .eq ↔ compareUneven s t = .eq ∧ compareUneven t u = .eq := by
  simp only [compareUneven_value, Nat.isLE_compare, Nat.compare_eq_eq] at *
  omega

/-! ## Stated lengths -/

/-- Stated limbs are compared by their values, also against more or fewer and with zero limbs put
past either. They fill the fewest limbs and the fewest bits that hold their value, and none exactly
when it is zero. -/
theorem measures_follow_value :
    (∀ (ns nt : Nat) (s t : Units), ns ≤ s.length → nt ≤ t.length →
      Checked.compareUneven ns s nt t = .ok (Ord.compare (val (s.take ns)) (val (t.take nt))) ∧
      Checked.compareUneven nt t ns s =
        .ok (Ord.compare (val (s.take ns)) (val (t.take nt))).swap ∧
      (ns = nt →
        Checked.compare ns s t = .ok (Ord.compare (val (s.take ns)) (val (t.take nt)))) ∧
      ∀ i j, Checked.compareUneven (ns + i) (s.take ns ++ zeros i) (nt + j)
        (t.take nt ++ zeros j) = Checked.compareUneven ns s nt t) ∧
    (∀ (ns nt nu : Nat) (s t u : Units), ns ≤ s.length → nt ≤ t.length → nu ≤ u.length →
      ∃ st tu su, Checked.compareUneven ns s nt t = .ok st ∧
        Checked.compareUneven nt t nu u = .ok tu ∧ Checked.compareUneven ns s nu u = .ok su ∧
        (st.isLE → tu.isLE → su.isLE ∧ (su = .eq ↔ st = .eq ∧ tu = .eq))) ∧
    ∀ (n : Nat) (s : Units), n ≤ s.length → ∃ limbs bits zero,
      Checked.significant n s = .ok limbs ∧ IsLeast {k | val (s.take n) < 2 ^ (64 * k)} limbs ∧
      Checked.bitLength n s = .ok bits ∧ IsLeast {k | val (s.take n) < 2 ^ k} bits ∧
      Checked.isZero n s = .ok zero ∧ (zero = true ↔ val (s.take n) = 0) ∧
      (zero = true ↔ limbs = 0) ∧ (zero = true ↔ bits = 0) := by
  refine ⟨fun ns nt s t hs ht => ⟨?uneven, ?swapped, ?even, fun i j => ?padded⟩,
    fun ns nt nu s t u hs ht hu => ⟨_, _, _, Checked.compareUneven_accepted hs ht,
      Checked.compareUneven_accepted ht hu, Checked.compareUneven_accepted hs hu,
      fun hst htu => ⟨Std.TransCmp.isLE_trans hst htu, compareUneven_eq_between hst htu⟩⟩,
    fun n s hs => ⟨_, _, _, Checked.significant_accepted hs, significant_isLeast _,
      Checked.bitLength_accepted hs, bitLength_isLeast _, Checked.isZero_accepted hs,
      isZero_iff _, ?_, ?_⟩⟩
  case uneven => rw [Checked.compareUneven_accepted hs ht, compareUneven_value]
  case swapped => rw [Checked.compareUneven_accepted ht hs, compareUneven_value, Nat.compare_swap]
  case even =>
    rintro rfl
    rw [Checked.compare_accepted hs ht, compare_value _ _ (by simp [hs, ht])]
  case padded =>
    have hs' : ns + i = (s.take ns ++ zeros i).length := by simp [hs]
    have ht' : nt + j = (t.take nt ++ zeros j).length := by simp [ht]
    rw [Checked.compareUneven_accepted hs ht, Checked.compareUneven_accepted hs'.le ht'.le, hs',
      ht', List.take_length, List.take_length, compareUneven_value, compareUneven_value,
      val_append_zeros, val_append_zeros]
  · rw [isZero_iff, significant_eq_zero_iff]
  · rw [isZero_iff, bitLength_eq_zero_iff]

/-- A shorter list of ones below a longer one whose top limb is not zero, and one whose top limb
is. -/
theorem measures_follow_value_uneven :
    let ones : Units := [0xffffffffffffffff]
    Checked.compareUneven 1 ones 2 [0, 1] = .ok .lt ∧
      Checked.compareUneven 2 [0, 1] 1 ones = .ok .gt ∧
      Checked.compareUneven 2 [0xffffffffffffffff, 0] 1 ones = .ok .eq ∧
      ∃ bits, Checked.bitLength 3 [0, 8, 0, 9] = .ok bits ∧
        IsLeast {k | val [0, 8, 0] < 2 ^ k} bits := by
  intro ones
  obtain ⟨horder, -, hmeasures⟩ := measures_follow_value
  obtain ⟨hbelow, habove, -, -⟩ := horder 1 2 ones [0, 1] (by decide) (by decide)
  obtain ⟨-, -, -, hpadded⟩ := horder 1 1 ones ones (by decide) (by decide)
  obtain ⟨hequal, -, -, -⟩ := horder 1 1 ones ones (by decide) (by decide)
  obtain ⟨-, bits, -, -, -, hbits, hleast, -⟩ := hmeasures 3 [0, 8, 0, 9] (by decide)
  exact ⟨hbelow, habove, (hpadded 1 0).trans hequal, bits, hbits, hleast⟩

end CryptoPrimitives.Units
