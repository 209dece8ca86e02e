import CryptoPrimitives.Proofs.Radix.Numeral

/-!
# Digits and chunks

A character has the value that its place in the alphabet gives it, and a value is written as the
character at its place. The chunk base is the power of the radix that its exponent says, and neither
it nor a lower power leaves a limb.
-/

set_option autoImplicit false

namespace CryptoPrimitives.Radix

/-! ## The radix -/

theorem check_ok {radix : Nat} (h2 : 2 ≤ radix) (hr : radix ≤ 36) : check radix = .ok () :=
  if_pos ⟨h2, hr⟩

theorem check_error {radix : Nat} (h : ¬(2 ≤ radix ∧ radix ≤ 36)) :
    check radix = .error (.invalidRadix radix) :=
  if_neg h

/-! ## Characters -/

theorem lower_toNat (ch : Char) :
    ch.toLower.toNat = if 65 ≤ ch.toNat ∧ ch.toNat ≤ 90 then ch.toNat + 32 else ch.toNat := by
  unfold Char.toLower
  simp only [Char.toNat, UInt32.le_iff_toNat_le, ge_iff_le]
  split
  · next h =>
    have hup : 65 ≤ ch.val.toNat ∧ ch.val.toNat ≤ 90 := h
    rw [if_pos hup, UInt32.toNat_add]
    exact Nat.mod_eq_of_lt (show ch.val.toNat + 32 < 2 ^ 32 by omega)
  · next h =>
    have hup : ¬(65 ≤ ch.val.toNat ∧ ch.val.toNat ≤ 90) := h
    rw [if_neg hup]

/-- The digit for a value is the character at that place of the alphabet. -/
theorem alphabet_getElem? (v : Nat) (hv : v < 36) : alphabet[v]? = some (digitChar v) := by
  revert v
  decide

theorem digitChar_toNat (v : Nat) (hv : v < 36) :
    (digitChar v).toNat = if v < 10 then 48 + v else 87 + v := by
  revert v
  decide

theorem isDigit_iff {radix v : Nat} (hr : radix ≤ 36) (ch : Char) :
    IsDigit radix ch v ↔ v < radix ∧ ch.toLower = digitChar v := by
  constructor
  · rintro ⟨hv, halpha⟩
    rw [alphabet_getElem? v (by omega)] at halpha
    exact ⟨hv, (Option.some_inj.mp halpha).symm⟩
  · rintro ⟨hv, hch⟩
    exact ⟨hv, by rw [alphabet_getElem? v (by omega), hch]⟩

theorem digitValue?_iff {radix : Nat} (hr : radix ≤ 36) (ch : Char) (v : Nat) :
    digitValue? radix ch = some v ↔ IsDigit radix ch v := by
  rw [isDigit_iff hr]
  by_cases hv : v < radix
  · have hlow := lower_toNat ch
    have hdigit := digitChar_toNat v (by omega)
    rw [← Char.toNat_inj, hlow, hdigit]
    unfold digitValue?
    simp only [hv, true_and]
    split_ifs <;> simp <;> omega
  · unfold digitValue?
    simp only [hv, false_and, iff_false]
    split_ifs <;> simp <;> omega

theorem digitValue?_eq_none {radix : Nat} (hr : radix ≤ 36) (ch : Char) :
    digitValue? radix ch = none ↔ ¬∃ v, IsDigit radix ch v := by
  rw [Option.eq_none_iff_forall_ne_some]
  simp only [ne_eq, digitValue?_iff hr, not_exists]

theorem digitChar_isDigit {radix v : Nat} (hr : radix ≤ 36) (hv : v < radix) :
    IsDigit radix (digitChar v) v := by
  rw [isDigit_iff hr]
  refine ⟨hv, ?_⟩
  have hlow := lower_toNat (digitChar v)
  have hdigit := digitChar_toNat v (by omega)
  rw [← Char.toNat_inj, hlow, hdigit]
  split_ifs <;> omega

/-! ## Chunks -/

theorem toUInt64_toNat {n : Nat} (hn : n < Limb.base) : n.toUInt64.toNat = n :=
  UInt64.toNat_ofNat_of_lt' hn

theorem radix_fits {radix : Nat} (hr : radix ≤ 36) : radix < Limb.base := by
  unfold Limb.base
  omega

/-- A limb times the radix, as long as that is one limb. -/
theorem toNat_mul_radix {radix : Nat} (hr : radix < Limb.base) {u : Limb}
    (h : u.toNat * radix < Limb.base) : (u * radix.toUInt64).toNat = u.toNat * radix := by
  rw [UInt64.toNat_mul, toUInt64_toNat hr]
  exact Nat.mod_eq_of_lt h

/-- Growing a chunk keeps it a power of the radix. -/
theorem growChunk_power {radix : Nat} (hr : radix < Limb.base) (rounds k : Nat) (power : Limb)
    (hp : power.toNat = radix ^ k) :
    (growChunk radix rounds (k, power)).2.toNat =
        radix ^ (growChunk radix rounds (k, power)).1 ∧
      k ≤ (growChunk radix rounds (k, power)).1 := by
  induction rounds generalizing k power with
  | zero => exact ⟨hp, Nat.le_refl k⟩
  | succ rounds ih =>
    rw [growChunk]
    split
    · next hfit =>
      have hmul : (power * radix.toUInt64).toNat = radix ^ (k + 1) := by
        rw [toNat_mul_radix hr hfit, hp, pow_succ]
      obtain ⟨hpow, hle⟩ := ih (k + 1) _ hmul
      exact ⟨hpow, by omega⟩
    · exact ⟨hp, Nat.le_refl k⟩

def chunkLength (radix : Nat) : Nat := (chunkBase radix).1

theorem chunkBase_power {radix : Nat} (hr : radix ≤ 36) :
    (chunkBase radix).2.toNat = radix ^ chunkLength radix ∧ 1 ≤ chunkLength radix := by
  have hlt := radix_fits hr
  exact growChunk_power hlt 64 1 radix.toUInt64 (by rw [toUInt64_toNat hlt, pow_one])

theorem chunk_fits {radix : Nat} (hr : radix ≤ 36) : radix ^ chunkLength radix < Limb.base := by
  rw [← (chunkBase_power hr).1]
  exact UInt64.toNat_lt _

/-- Every power up to the chunk base fits a limb. -/
theorem power_fits {radix k : Nat} (h2 : 2 ≤ radix) (hr : radix ≤ 36)
    (hk : k ≤ chunkLength radix) : radix ^ k < Limb.base :=
  (Nat.pow_le_pow_right (by omega) hk).trans_lt (chunk_fits hr)

theorem limbPower_value {radix k : Nat} (h2 : 2 ≤ radix) (hr : radix ≤ 36)
    (hk : k ≤ chunkLength radix) : (limbPower radix.toUInt64 k).toNat = radix ^ k := by
  induction k with
  | zero => rfl
  | succ k ih =>
    have hfit := power_fits h2 hr hk
    have hlow := ih (by omega)
    rw [pow_succ, ← hlow] at hfit
    rw [limbPower, toNat_mul_radix (radix_fits hr) hfit, hlow, pow_succ]

end CryptoPrimitives.Radix
