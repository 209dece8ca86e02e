import CryptoPrimitives.BigInt.Division
import CryptoPrimitives.Proofs.BigInt.Arithmetic
import CryptoPrimitives.Proofs.Units.LongDivision

/-!
# Division of numbers

Truncated division on every path: a dividend below the divisor, a divisor of one limb, and the long
division, each of whose steps is exact. The residue follows from the remainder.
-/

set_option autoImplicit false

namespace CryptoPrimitives.BigInt

/-! ## Truncated division of integers -/

structure Truncated (s t q r : Int) : Prop where
  value : q * t + r = s
  rest_lt : |r| < |t|
  rest_sign : r = 0 ∨ r.sign = s.sign
  quotient_sign : q = 0 ∨ (q < 0 ↔ ¬(s < 0 ↔ t < 0))

theorem signed_sign (negative : Bool) (m : Nat) (h : m ≠ 0) :
    (signed negative m).sign = if negative then -1 else 1 := by
  have hpos : (0 : Int) < m := by omega
  cases negative
  · exact Int.sign_eq_one_of_pos hpos
  · simpa [signed] using Int.sign_eq_neg_one_of_neg (Int.neg_neg_of_pos hpos)

/-- Magnitudes divided, and the signs put on. -/
theorem truncated_of_magnitudes (a b : Bool) (S T Q R : Nat) (hv : Q * T + R = S) (hr : R < T) :
    Truncated (signed a S) (signed b T) (signed (a != b) Q) (signed a R) := by
  have hfold : ((a != b) != b) = a := by cases a <;> cases b <;> rfl
  constructor
  · rw [← signed_mul, hfold, ← signed_add, hv]
  · rw [Int.abs_eq_natAbs, Int.abs_eq_natAbs, signed_natAbs, signed_natAbs]
    exact Int.ofNat_lt.mpr hr
  · by_cases h0 : R = 0
    · left
      rw [h0, signed_zero]
    · right
      rw [signed_sign a R h0, signed_sign a S (by omega)]
  · by_cases h0 : Q = 0
    · left
      rw [h0, signed_zero]
    · right
      have hS : S ≠ 0 := by
        have hpos := Nat.mul_pos (Nat.pos_of_ne_zero h0) (show 0 < T by omega)
        omega
      rw [signed_neg_iff, signed_neg_iff, signed_neg_iff]
      cases a <;> cases b <;> simp [h0, hS] <;> omega

theorem residue_unique (s t : Int) (ht : t ≠ 0) (k : Int) :
    0 ≤ k ∧ k < |t| ∧ t ∣ s - k ↔ k = s % t := by
  constructor
  · rintro ⟨h0, hlt, hdvd⟩
    rw [Int.emod_eq_emod_iff_emod_sub_eq_zero.mpr (Int.emod_eq_zero_of_dvd hdvd),
      ← Int.emod_abs, Int.emod_eq_of_lt h0 hlt]
  · rintro rfl
    exact ⟨Int.emod_nonneg _ ht, Int.emod_lt_abs _ ht, Int.dvd_self_sub_emod⟩

/-- The residue from a truncated division. -/
theorem Truncated.residue {s t q r : Int} (h : Truncated s t q r) (ht : t ≠ 0) :
    s % t = if r < 0 then r + |t| else r := by
  have hlt := h.rest_lt
  have hdvd : t ∣ s - r := ⟨q, by rw [← h.value]; ring⟩
  apply Eq.symm
  rw [← residue_unique s t ht]
  split
  · rw [abs_of_neg (by assumption)] at hlt
    refine ⟨by omega, by omega, ?_⟩
    rw [← sub_sub]
    exact Int.dvd_sub hdvd ((dvd_abs t t).mpr (dvd_refl t))
  · rw [abs_of_nonneg (by omega)] at hlt
    exact ⟨by omega, hlt, hdvd⟩

/-! ## Outcomes -/

section Outcomes

variable [Rendition] {s t : BigInt}

theorem divMod_zero (ht : Canonical t) (h0 : t.toInt = 0) :
    (s.divMod t).outcome = .error .divisionByZero := by
  unfold divMod
  rw [if_pos (ht.isZero_iff.mpr h0)]
  rfl

theorem divMod_outcome (ht : Canonical t) (h0 : t.toInt ≠ 0) :
    ∃ q r, (s.divMod t).outcome = .ok (q, r) ∧ Canonical q ∧ Canonical r ∧
      Truncated s.toInt t.toInt q.toInt r.toInt := by
  have hne : ¬ t.isZero = true := fun hz => h0 (ht.isZero_iff.mp hz)
  have htop := ht.top_unit (fun hz => h0 (ht.toInt_eq_zero_iff.mpr hz))
  obtain ⟨hval, hlt⟩ := Units.divMod_value s.units t.units htop
  have hq := (write_written (empty_canonical s.alloc)
    (Units.divMod s.units t.units).1).represents (s.negative != t.negative)
  have hr := (write_written (empty_canonical s.alloc)
    (Units.divMod s.units t.units).2).represents s.negative
  refine ⟨_, _, ?_, hq.canonical, hr.canonical, ?_⟩
  · unfold divMod
    rw [if_neg hne]
    rfl
  · rw [hq.toInt_eq, hr.toInt_eq]
    exact truncated_of_magnitudes s.negative t.negative _ _ _ _ hval hlt

theorem emod_zero (ht : Canonical t) (h0 : t.toInt = 0) :
    (s.emod t).outcome = .error .divisionByZero := by
  unfold emod
  exact Attempt.outcome_bind_error _ (divMod_zero ht h0)

theorem emod_outcome (ht : Canonical t) (h0 : t.toInt ≠ 0) :
    ∃ x, (s.emod t).outcome = .ok x ∧ Represents x (s.toInt % t.toInt) := by
  obtain ⟨q, r, hqr, -, hr, hdiv⟩ := divMod_outcome (s := s) ht h0
  have hres := hdiv.residue h0
  unfold emod
  rw [Attempt.outcome_bind_ok _ hqr]
  by_cases hneg : r.negative = true
  · have hadd := add_represents hr (abs_canonical t)
    rw [if_pos (hr.negative_iff.mp hneg)] at hres
    rw [abs_toInt, ← hres] at hadd
    refine ⟨_, ?_, hadd⟩
    simp only [hneg, if_true]
    rfl
  · rw [if_neg (fun hlt => hneg (hr.negative_iff.mpr hlt))] at hres
    refine ⟨r, ?_, hr, hres.symm⟩
    simp only [hneg]
    rfl

theorem iterations_exact (hs : Canonical s) (ht : Canonical t) (h0 : t.toInt ≠ 0) :
    (∀ window ∈ (Units.divModNoted s.units t.units).entries,
        Units.Step (Units.normalized t.units) window) ∧
      (2 ≤ t.size → |t.toInt| ≤ |s.toInt| →
        (Units.divModNoted s.units t.units).entries.length = s.size - t.size + 1) := by
  have htop := ht.top_unit (fun hz => h0 (ht.toInt_eq_zero_iff.mpr hz))
  obtain ⟨hsteps, hcount⟩ := Units.divModNoted_steps s.units t.units htop
  rw [hs.length_units, ht.length_units] at hcount
  refine ⟨hsteps, fun hsize hle => hcount hsize ?_⟩
  rw [Int.abs_eq_natAbs, Int.abs_eq_natAbs, toInt_natAbs, toInt_natAbs] at hle
  exact Int.ofNat_le.mp hle

/-- Division is refused exactly for a zero divisor. Otherwise it truncates toward zero, each
window that a long division meets is cut exactly, and the residue is the one number of its class
from zero up to the divisor. -/
theorem division_truncates (s t : BigInt) (hs : Canonical s) (ht : Canonical t) :
    ((s.divMod t).outcome = .error .divisionByZero ↔ t.toInt = 0) ∧
    ((s.emod t).outcome = .error .divisionByZero ↔ t.toInt = 0) ∧
    (t.toInt ≠ 0 →
      (∃ q r, (s.divMod t).outcome = .ok (q, r) ∧ Canonical q ∧ Canonical r ∧
        Truncated s.toInt t.toInt q.toInt r.toInt) ∧
      (Units.divModNoted s.units t.units).val = Units.divMod s.units t.units ∧
      (∀ window ∈ (Units.divModNoted s.units t.units).entries,
        Units.Step (Units.normalized t.units) window) ∧
      (2 ≤ t.size → |t.toInt| ≤ |s.toInt| →
        (Units.divModNoted s.units t.units).entries.length = s.size - t.size + 1) ∧
      ∃ x, (s.emod t).outcome = .ok x ∧ Canonical x ∧
        ∀ k : Int, 0 ≤ k ∧ k < |t.toInt| ∧ t.toInt ∣ s.toInt - k ↔ k = x.toInt) := by
  refine ⟨⟨fun h => ?_, divMod_zero ht⟩, ⟨fun h => ?_, emod_zero ht⟩, fun h0 => ?_⟩
  · by_contra h0
    obtain ⟨q, r, hok, -⟩ := divMod_outcome (s := s) ht h0
    rw [hok] at h
    cases h
  · by_contra h0
    obtain ⟨x, hok, -⟩ := emod_outcome (s := s) ht h0
    rw [hok] at h
    cases h
  · obtain ⟨hsteps, hcount⟩ := iterations_exact hs ht h0
    obtain ⟨x, hok, hx⟩ := emod_outcome (s := s) ht h0
    refine ⟨divMod_outcome ht h0, Units.divModNoted_val _ _, hsteps, hcount, x, hok,
      hx.canonical, fun k => ?_⟩
    rw [hx.toInt_eq]
    exact residue_unique _ _ h0 k

end Outcomes

/-- A dividend whose second window has the divisor's own top limb, so that the first estimate there
is the base itself. -/
theorem division_truncates_equal_top :
    let s : BigInt := ⟨[0, 0, 0x8000000000000000], 3, true, .secure⟩
    let t : BigInt := ⟨[1, 0x8000000000000000], 2, false, .secure⟩
    Canonical s ∧ Canonical t ∧ t.toInt ≠ 0 ∧ ∃ q r, (s.divMod t).outcome = .ok (q, r) ∧
      Canonical q ∧ Canonical r ∧ Truncated s.toInt t.toInt q.toInt r.toInt := by
  intro s t
  have hs : Canonical s := ⟨by decide, rfl, by decide, by decide⟩
  have ht : Canonical t := ⟨by decide, rfl, by decide, by decide⟩
  have h0 : t.toInt ≠ 0 := by decide
  exact ⟨hs, ht, h0, ((division_truncates s t hs ht).2.2 h0).1⟩

end CryptoPrimitives.BigInt
