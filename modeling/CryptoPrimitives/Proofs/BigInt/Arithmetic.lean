import CryptoPrimitives.BigInt.Arithmetic
import CryptoPrimitives.Proofs.BigInt.Canonical
import CryptoPrimitives.Proofs.Units.Product

/-!
# The arithmetic of numbers

Sums, differences and products are those of the integers, whatever the destination held. The
larger magnitude of a difference is found by the comparison of the limbs.
-/

set_option autoImplicit false

namespace CryptoPrimitives.BigInt

variable {d s t : BigInt}

theorem compareAbs_lt_iff (s t : BigInt) :
    s.compareAbs t = .lt ↔ s.magnitude < t.magnitude :=
  Units.compareUneven_lt_iff s.units t.units

/-- The smaller magnitude has no more limbs. -/
theorem length_units_le (hs : Canonical s) (ht : Canonical t) (h : t.magnitude ≤ s.magnitude) :
    t.units.length ≤ s.units.length := by
  rw [hs.length_units, ht.length_units, ht.size_le_iff]
  have hlt := (hs.size_le_iff s.size).mp (Nat.le_refl _)
  omega

theorem signed_add (negative : Bool) (m n : Nat) :
    signed negative (m + n) = signed negative m + signed negative n := by
  cases negative
  · simp [signed]
  · simp [signed]
    omega

theorem signed_sub (a b : Bool) (hab : a ≠ b) (m n : Nat) (h : n ≤ m) :
    signed a (m - n) = signed a m + signed b n := by
  cases a <;> cases b <;> simp [signed] at * <;> omega

variable [Rendition]

theorem sub_magnitude (hs : Canonical s) (ht : Canonical t) (h : t.magnitude ≤ s.magnitude) :
    Units.val (Units.sub s.units t.units) = s.magnitude - t.magnitude :=
  Units.sub_value s.units t.units (length_units_le hs ht h) h

theorem writeSignedSum_represents (hd : Canonical d) (hs : Canonical s) (ht : Canonical t)
    (sNeg tNeg : Bool) :
    Represents (d.writeSignedSum s sNeg t tNeg).val
      (signed sNeg s.magnitude + signed tNeg t.magnitude) := by
  unfold writeSignedSum
  by_cases hsign : sNeg = tNeg
  · have hw := write_written hd (Units.add s.units t.units)
    have hr := hw.represents sNeg
    rw [Units.add_value, signed_add] at hr
    rw [if_pos hsign, ← hsign]
    exact hr
  · rw [if_neg hsign]
    by_cases hlt : s.compareAbs t = .lt
    · have hle := ((compareAbs_lt_iff s t).mp hlt).le
      have hr := (write_written hd (Units.sub t.units s.units)).represents tNeg
      rw [sub_magnitude ht hs hle, signed_sub tNeg sNeg (Ne.symm hsign) _ _ hle, Int.add_comm] at hr
      rw [if_pos hlt]
      exact hr
    · have hle : t.magnitude ≤ s.magnitude := by
        rw [compareAbs_lt_iff] at hlt
        omega
      have hr := (write_written hd (Units.sub s.units t.units)).represents sNeg
      rw [sub_magnitude hs ht hle, signed_sub sNeg tNeg hsign _ _ hle] at hr
      rw [if_neg hlt]
      exact hr

theorem writeSum_represents (hd : Canonical d) (hs : Canonical s) (ht : Canonical t) :
    Represents (d.writeSum s t).val (s.toInt + t.toInt) :=
  writeSignedSum_represents hd hs ht s.negative t.negative

theorem writeDifference_represents (hd : Canonical d) (hs : Canonical s) (ht : Canonical t) :
    Represents (d.writeDifference s t).val (s.toInt - t.toInt) := by
  have hr := writeSignedSum_represents hd hs ht s.negative (!t.negative && !t.isZero)
  have hneg : signed (!t.negative && !t.isZero) t.magnitude = -t.toInt := by
    by_cases h0 : t.size = 0
    · rw [ht.size_eq_zero_iff.mp h0, signed_zero, ht.toInt_eq_zero_iff.mpr h0, Int.neg_zero]
    · rw [toInt_eq, isZero, beq_eq_false_iff_ne.mpr h0]
      cases t.negative <;> simp [signed]
  rw [hneg, ← Int.sub_eq_add_neg] at hr
  exact hr

theorem writeProduct_represents (hd : Canonical d) (hs : Canonical s) (ht : Canonical t) :
    Represents (d.writeProduct s t).val (s.toInt * t.toInt) := by
  unfold writeProduct
  by_cases h0 : (s.isZero || t.isZero) = true
  · have hzero : s.toInt * t.toInt = 0 := by
      rw [Bool.or_eq_true, hs.isZero_iff, ht.isZero_iff] at h0
      exact Int.mul_eq_zero.mpr h0
    rw [if_pos h0, hzero]
    exact clear_represents hd 0
  · have hr := (write_written hd (Units.mul s.units t.units)).represents
      (s.negative != t.negative)
    rw [Units.mul_value, signed_mul] at hr
    rw [if_neg h0]
    exact hr

/-! ## New numbers -/

theorem add_represents (hs : Canonical s) (ht : Canonical t) :
    Represents (s.add t).val (s.toInt + t.toInt) :=
  writeSum_represents (empty_canonical _) hs ht

theorem sub_represents (hs : Canonical s) (ht : Canonical t) :
    Represents (s.sub t).val (s.toInt - t.toInt) :=
  writeDifference_represents (empty_canonical _) hs ht

theorem mul_represents (hs : Canonical s) (ht : Canonical t) :
    Represents (s.mul t).val (s.toInt * t.toInt) :=
  writeProduct_represents (empty_canonical _) hs ht

end CryptoPrimitives.BigInt
