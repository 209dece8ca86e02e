import CryptoPrimitives.Proofs.BigInt.Division
import CryptoPrimitives.Proofs.BigInt.Shift
import CryptoPrimitives.Residue.Division

/-!
# Residues by long division

Every operation ends in a residue of the exact result. The power loop keeps the power to the part of
the exponent read so far.
-/

set_option autoImplicit false

namespace CryptoPrimitives.DivisionReducer

open BigInt (Canonical Represents)

structure Valid (r : DivisionReducer) : Prop where
  canonical : Canonical r.modulus
  positive : 0 < r.modulus.toInt

/-- The exponent with one more bit read. -/
theorem bit_join (x : BigInt) (bits : Nat) :
    x.magnitude / 2 ^ bits = 2 * (x.magnitude / 2 ^ (bits + 1)) + (x.bitAt bits).toNat := by
  rw [BigInt.bitAt_value, pow_succ, ← Nat.div_div_eq_div_mul]
  omega

theorem create_valid {m : BigInt} (hm : Canonical m) (h0 : m.toInt ≠ 0) :
    ∃ r, (create m).outcome = .ok r ∧ Valid r ∧ r.modulus.toInt = |m.toInt| := by
  have hzero : ¬ m.isZero = true := fun hz => h0 (hm.isZero_iff.mp hz)
  refine ⟨⟨m.abs.val⟩, ?_, ⟨BigInt.abs_canonical m, ?_⟩, BigInt.abs_toInt m⟩
  · unfold create
    rw [if_neg hzero]
    rfl
  · rw [BigInt.abs_toInt]
    exact abs_pos.mpr h0

theorem create_zero {m : BigInt} (hm : Canonical m) (h0 : m.toInt = 0) :
    (create m).outcome = .error .divisionByZero := by
  unfold create
  rw [if_pos (hm.isZero_iff.mpr h0)]
  rfl

variable [Rendition] {r : DivisionReducer}

theorem reduce_outcome (h : Valid r) {x : BigInt} :
    ∃ y, (r.reduce x).outcome = .ok y ∧ Represents y (x.toInt % r.modulus.toInt) := by
  have hpos := h.positive
  exact BigInt.emod_outcome h.canonical (by omega)

theorem mulMod_outcome (h : Valid r) {a b : BigInt} (ha : Canonical a) (hb : Canonical b) :
    ∃ y, (r.mulMod a b).outcome = .ok y ∧
      Represents y (a.toInt * b.toInt % r.modulus.toInt) := by
  have hpos := h.positive
  have hmul := BigInt.mul_represents ha hb
  obtain ⟨y, hok, hy⟩ := BigInt.emod_outcome (s := (a.mul b).val) h.canonical (by omega)
  rw [hmul.toInt_eq] at hy
  refine ⟨y, ?_, hy⟩
  unfold mulMod
  rw [Attempt.outcome_bind_ok _ (Attempt.outcome_lift _), Attempt.outcome_bind_ok _ hok]
  rfl

/-- The accumulator is the power to the bits read, and each step reads one more. -/
theorem powerLoop_outcome (h : Valid r) {b exponent : BigInt} {g : Int} (hb : Canonical b)
    (hg : b.toInt = g % r.modulus.toInt) (bits : Nat) {acc : BigInt}
    (hacc : Represents acc (g ^ (exponent.magnitude / 2 ^ bits) % r.modulus.toInt)) :
    ∃ y, (r.powerLoop b exponent bits acc).outcome = .ok y ∧
      Represents y (g ^ exponent.magnitude % r.modulus.toInt) := by
  induction bits generalizing acc with
  | zero => exact ⟨acc, rfl, by simpa using hacc⟩
  | succ bits ih =>
    have hjoin := bit_join exponent bits
    obtain ⟨square, hoks, hs⟩ := mulMod_outcome h hacc.canonical hacc.canonical
    rw [hacc.toInt_eq, ← Int.mul_emod, ← pow_add, ← Nat.two_mul] at hs
    unfold powerLoop
    rw [Attempt.outcome_bind_ok _ hoks, Attempt.outcome_bind_ok _ (Attempt.outcome_lift _)]
    by_cases hbit : exponent.bitAt bits = 1
    · obtain ⟨next, hokn, hn⟩ := mulMod_outcome h hs.canonical hb
      rw [hs.toInt_eq, hg, ← Int.mul_emod, ← pow_succ] at hn
      rw [hbit, UInt64.toNat_one] at hjoin
      rw [← hjoin] at hn
      rw [if_pos hbit, Attempt.outcome_bind_ok _ hokn,
        Attempt.outcome_bind_ok _ (Attempt.outcome_lift _)]
      exact ih hn
    · have hzero : (exponent.bitAt bits).toNat = 0 := by
        have hv := BigInt.bitAt_value exponent bits
        have hne : (exponent.bitAt bits).toNat ≠ 1 := fun h1 => hbit (UInt64.toNat_inj.mp h1)
        omega
      rw [hzero, Nat.add_zero] at hjoin
      rw [← hjoin] at hs
      rw [if_neg hbit]
      exact ih hs

theorem powMod_outcome (h : Valid r) {b exponent : BigInt} (hsign : exponent.negative = false) :
    ∃ y, (r.powMod b exponent).outcome = .ok y ∧
      Represents y (b.toInt ^ exponent.magnitude % r.modulus.toInt) := by
  have hpos := h.positive
  have hone := BigInt.ofLimb_represents 1
  obtain ⟨residue, hokr, hr⟩ := reduce_outcome h (x := b)
  obtain ⟨start, hoks, hs⟩ := BigInt.emod_outcome (s := (BigInt.ofLimb 1).val) h.canonical
    (show r.modulus.toInt ≠ 0 by omega)
  have hstart : Represents start
      (b.toInt ^ (exponent.magnitude / 2 ^ exponent.bitLength) % r.modulus.toInt) := by
    rw [BigInt.bitLength_eq, Nat.div_eq_of_lt (Nat.lt_size_self _), pow_zero]
    rw [hone.toInt_eq] at hs
    exact hs
  obtain ⟨y, hoky, hy⟩ := powerLoop_outcome h hr.canonical hr.toInt_eq _ hstart
  refine ⟨y, ?_, hy⟩
  unfold powMod
  rw [if_neg (by simp [hsign]), Attempt.outcome_bind_ok _ hokr,
    Attempt.outcome_bind_ok _ (Attempt.outcome_lift _), Attempt.outcome_bind_ok _ hoks,
    Attempt.outcome_bind_ok _ (Attempt.outcome_lift _), Attempt.outcome_bind_ok _ hoky]
  rfl

theorem powMod_negative {b exponent : BigInt} (hsign : exponent.negative = true) :
    (r.powMod b exponent).outcome = .error .invalidInput := by
  unfold powMod
  rw [if_pos hsign]
  rfl

end CryptoPrimitives.DivisionReducer
