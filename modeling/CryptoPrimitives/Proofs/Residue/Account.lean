import CryptoPrimitives.Proofs.BigInt.Account
import CryptoPrimitives.Proofs.Residue.Made

/-!
# The account of reducers

A reducer holds the buffers of the numbers that it keeps. Its answers give back all they take but
the result; they are never refused half way, as the modulus is not zero.
-/

set_option autoImplicit false

namespace CryptoPrimitives

variable {owner : Allocator} {n : Nat}

/-! ## Long division -/

namespace DivisionReducer

open Attempt (Settles)

theorem create_settles (m : BigInt) :
    Settles owner n 0 (create m) fun r => r.modulus.held owner n := by
  unfold create
  by_cases h0 : m.isZero = true
  · rw [if_pos h0]
    exact .refused rfl _ _
  · rw [if_neg h0]
    exact .makes (BigInt.abs_settles m) (.value (by simp))

theorem create_nonzero {m : BigInt} (hm : BigInt.Canonical m) :
    Attempt.Yields (fun r => r.modulus.isZero = false) (create m) := by
  unfold create
  by_cases h0 : m.isZero = true
  · rw [if_pos h0]
    exact .refused _ _
  · rw [if_neg h0]
    exact .bind (.lift (BigInt.abs_nonzero hm h0)) fun modulus h => .value h

section Answers

variable [Rendition] {r : DivisionReducer} (h : r.modulus.isZero = false)

include h

theorem mulMod_ok (a b : BigInt) : ∃ x, (r.mulMod a b).outcome = .ok x := by
  obtain ⟨x, hx⟩ := BigInt.emod_ok (a.mul b).val h
  refine ⟨x, ?_⟩
  unfold mulMod
  rw [Attempt.outcome_bind_ok _ (Attempt.outcome_lift _), Attempt.outcome_bind_ok _ hx]
  rfl

theorem mulMod_settles (a b : BigInt) :
    Settles owner n 0 (r.mulMod a b) (·.held owner n) := by
  unfold mulMod
  refine .makes (BigInt.mul_settles a b) ?_
  refine .sure (BigInt.emod_settles _ _) (BigInt.emod_ok _ h) fun x _ => ?_
  exact .release (a.mul b).val (by omega) (.value (by omega))

theorem powerLoop_ok (b exponent : BigInt) (bits : Nat) (acc : BigInt) :
    ∃ x, (r.powerLoop b exponent bits acc).outcome = .ok x := by
  induction bits generalizing acc with
  | zero => exact ⟨acc, rfl⟩
  | succ bits ih =>
    obtain ⟨squared, hs⟩ := mulMod_ok h acc acc
    unfold powerLoop
    rw [Attempt.outcome_bind_ok _ hs, Attempt.outcome_bind_ok _ (Attempt.outcome_lift _)]
    split
    · obtain ⟨next, hn⟩ := mulMod_ok h squared b
      rw [Attempt.outcome_bind_ok _ hn, Attempt.outcome_bind_ok _ (Attempt.outcome_lift _)]
      exact ih next
    · exact ih squared

/-- The number that the power is gathered in goes back with each round. -/
theorem powerLoop_settles (b exponent : BigInt) (bits : Nat) (acc : BigInt) :
    Settles owner n (acc.held owner n) (r.powerLoop b exponent bits acc) (·.held owner n) := by
  induction bits generalizing acc with
  | zero => exact .value rfl
  | succ bits ih =>
    unfold powerLoop
    refine .sure (mulMod_settles h acc acc) (mulMod_ok h acc acc) fun squared _ => ?_
    refine .release acc (by omega) ?_
    split
    · refine .sure (mulMod_settles h squared b) (mulMod_ok h squared b) fun next _ => ?_
      exact .release squared (by omega) ((ih next).whole (by omega))
    · exact (ih squared).whole (by omega)

theorem powMod_settles (b exponent : BigInt) :
    Settles owner n 0 (r.powMod b exponent) (·.held owner n) := by
  unfold powMod
  split
  · exact .refused rfl _ _
  · refine .bind (BigInt.emod_settles b r.modulus) fun residue _ => ?_
    refine .makes (BigInt.ofLimb_settles 1) ?_
    refine .sure (BigInt.emod_settles _ _) (BigInt.emod_ok _ h) fun start _ => ?_
    refine .release (BigInt.ofLimb 1).val (by omega) ?_
    refine .bind_ok (powerLoop_settles h residue exponent _ start) (by omega)
      (powerLoop_ok h residue exponent _ start) fun power _ => ?_
    exact .release residue (by omega) (.value (by omega))

end Answers

end DivisionReducer

/-! ## Montgomery form -/

namespace MontgomeryContext

open Attempt (Settles)

variable [Rendition]

theorem create_settles {m : BigInt} (hm : BigInt.Canonical m) :
    Settles owner n 0 (create m) fun c => c.modulus.held owner n + c.rSquared.held owner n := by
  unfold create
  by_cases h0 : m.isZero = true
  · rw [if_pos h0]
    exact .refused rfl _ _
  · rw [if_neg h0]
    by_cases heven : m.isEven = true
    · rw [if_pos heven]
      exact .refused rfl _ _
    · rw [if_neg heven]
      have habs := BigInt.abs_nonzero hm h0
      refine .makes (BigInt.abs_settles m) ?_
      refine .makes (BigInt.ofLimb_settles 1) ?_
      refine .makes (BigInt.shiftLeft_settles _ _) ?_
      generalize BigInt.shiftLeft _ _ = square
      refine .release (BigInt.ofLimb 1).val (by omega) ?_
      refine .sure (BigInt.emod_settles _ _) (BigInt.emod_ok _ habs) fun rSquared _ => ?_
      exact .release square.val (by omega) (.value (by simp only; omega))

theorem create_nonzero {m : BigInt} (hm : BigInt.Canonical m) :
    Attempt.Yields (fun c => c.modulus.isZero = false) (create m) := by
  unfold create
  by_cases h0 : m.isZero = true
  · rw [if_pos h0]
    exact .refused _ _
  · rw [if_neg h0]
    by_cases heven : m.isEven = true
    · rw [if_pos heven]
      exact .refused _ _
    · rw [if_neg heven]
      have habs : Attempt.Yields (fun modulus => modulus.isZero = false) (liftM m.abs) :=
        .lift (BigInt.abs_nonzero hm h0)
      refine .bind habs fun modulus h => ?_
      refine .after fun one => .after fun square => .after fun _ => .after fun rSquared => ?_
      exact .after fun _ => .value h

section Products

variable (c : MontgomeryContext)

omit [Rendition] in
theorem ofUnits_settles (limbs : Units) :
    Ledger.Settles owner n 0 (c.ofUnits limbs).entries ((c.ofUnits limbs).val.held owner n) :=
  BigInt.fresh_settles _ _

theorem mulFitting_settles (a b : BigInt) :
    Ledger.Settles owner n 0 (c.mulFitting a b).entries ((c.mulFitting a b).val.held owner n) :=
  c.ofUnits_settles _

theorem divR_settles (a : BigInt) :
    Ledger.Settles owner n 0 (c.divR a).entries ((c.divR a).val.held owner n) := by
  refine .bind (BigInt.ofLimb_settles 1) (Nat.zero_le _) ?_
  refine .bind (c.mulFitting_settles a (BigInt.ofLimb 1).val) (Nat.zero_le _) ?_
  refine .bind (BigInt.release_settles (BigInt.ofLimb 1).val) (by omega) (.nil ?_)
  change _ = (c.mulFitting a (BigInt.ofLimb 1).val).val.held owner n
  omega

theorem mul_settles (a b : BigInt) (x : Booked BigInt) (hx : c.mul a b = .ok x) :
    Ledger.Settles owner n 0 x.entries (x.val.held owner n) := by
  unfold mul fits Units.Checked.demand at hx
  split at hx
  · split at hx
    · cases hx
      exact c.mulFitting_settles a b
    · cases hx
  · cases hx

theorem fromMontgomery_settles (a : BigInt) (x : Booked BigInt) (hx : c.fromMontgomery a = .ok x) :
    Ledger.Settles owner n 0 x.entries (x.val.held owner n) := by
  unfold fromMontgomery fits Units.Checked.demand at hx
  split at hx
  · cases hx
    exact c.divR_settles a
  · cases hx

theorem toMontgomery_settles (a : BigInt) :
    Settles owner n 0 (c.toMontgomery a) (·.held owner n) := by
  unfold toMontgomery
  refine .bind (BigInt.emod_settles a c.modulus) fun residue _ => ?_
  refine .makes (c.mulFitting_settles residue c.rSquared) ?_
  exact .release residue (by omega) (.value (by omega))

theorem toMontgomery_ok (h : c.modulus.isZero = false) (a : BigInt) :
    ∃ x, (c.toMontgomery a).outcome = .ok x := by
  obtain ⟨residue, hr⟩ := BigInt.emod_ok a h
  unfold toMontgomery
  rw [Attempt.outcome_bind_ok _ hr]
  exact ⟨_, rfl⟩

theorem pow_settles (h : c.modulus.isZero = false) (b exponent : BigInt) :
    Settles owner n 0 (c.pow b exponent) (·.held owner n) := by
  unfold pow
  split
  · exact .refused rfl _ _
  · refine .makes (BigInt.ofLimb_settles 1) ?_
    refine .sure (c.toMontgomery_settles _) (c.toMontgomery_ok h _) fun oneForm _ => ?_
    refine .release (BigInt.ofLimb 1).val (by omega) ?_
    refine .sure (c.toMontgomery_settles b) (c.toMontgomery_ok h b) fun baseForm _ => ?_
    refine .makes (c.ofUnits_settles _) ?_
    generalize c.ofUnits _ = power
    refine .release oneForm (by omega) ?_
    refine .release baseForm (by omega) ?_
    refine .makes (c.divR_settles power.val) ?_
    exact .release power.val (by omega) (.value (by omega))

theorem mulMod_settles (h : c.modulus.isZero = false) (a b : BigInt) :
    Settles owner n 0 (c.mulMod a b) (·.held owner n) := by
  unfold mulMod
  refine .bind (BigInt.emod_settles a c.modulus) fun a _ => ?_
  refine .sure (BigInt.emod_settles b c.modulus) (BigInt.emod_ok b h) fun b _ => ?_
  refine .makes (c.mulFitting_settles a b) ?_
  refine .release a (by omega) ?_
  refine .release b (by omega) ?_
  refine .makes (c.mulFitting_settles _ c.rSquared) ?_
  exact .release (c.mulFitting a b).val (by omega) (.value (by omega))

end Products

end MontgomeryContext

/-! ## Reducers of either kind -/

namespace Reducer

open Attempt (Settles)

def held (owner : Allocator) (n : Nat) : Reducer → Nat
  | division r => r.modulus.held owner n
  | montgomery c => c.modulus.held owner n + c.rSquared.held owner n

theorem release_settles (r : Reducer) :
    Ledger.Settles owner n (r.held owner n) r.release.entries 0 := by
  cases r with
  | division r => exact BigInt.release_settles r.modulus
  | montgomery c =>
    change Ledger.Settles owner n (c.modulus.held owner n + c.rSquared.held owner n) _ 0
    refine .bind (BigInt.release_settles c.modulus) (by omega) ?_
    exact (BigInt.release_settles c.rSquared).within (by omega) (by omega)

variable [Rendition]

theorem forModulus_settles {m : BigInt} (hm : BigInt.Canonical m) :
    Settles owner n 0 (forModulus m) (Reducer.held owner n) := by
  unfold forModulus
  by_cases h0 : m.isZero = true
  · rw [if_pos h0]
    exact .refused rfl _ _
  · rw [if_neg h0]
    split
    · exact .bind (MontgomeryContext.create_settles hm) fun c _ => .value rfl
    · exact .bind (DivisionReducer.create_settles m) fun r _ => .value rfl

theorem forModulus_nonzero {m : BigInt} (hm : BigInt.Canonical m) :
    Attempt.Yields (fun r => r.modulus.isZero = false) (forModulus m) := by
  unfold forModulus
  by_cases h0 : m.isZero = true
  · rw [if_pos h0]
    exact .refused _ _
  · rw [if_neg h0]
    split
    · exact .bind (MontgomeryContext.create_nonzero hm) fun c hc => .value hc
    · exact .bind (DivisionReducer.create_nonzero hm) fun r hr => .value hr

section Answers

variable {r : Reducer}

theorem reduce_settles (r : Reducer) (x : BigInt) :
    Settles owner n 0 (r.reduce x) (·.held owner n) := by
  cases r with
  | division r => exact BigInt.emod_settles x r.modulus
  | montgomery c => exact BigInt.emod_settles x c.modulus

theorem mulMod_settles (h : r.modulus.isZero = false) (a b : BigInt) :
    Settles owner n 0 (r.mulMod a b) (·.held owner n) := by
  cases r with
  | division r => exact DivisionReducer.mulMod_settles h a b
  | montgomery c => exact c.mulMod_settles h a b

theorem powMod_settles (h : r.modulus.isZero = false) (b exponent : BigInt) :
    Settles owner n 0 (r.powMod b exponent) (·.held owner n) := by
  cases r with
  | division r => exact DivisionReducer.powMod_settles h b exponent
  | montgomery c => exact c.pow_settles h b exponent

/-- The reducer of the one power goes back, also after a refusal. -/
theorem bigInt_powMod_settles (b exponent : BigInt) {m : BigInt} (hm : BigInt.Canonical m) :
    Settles owner n 0 (b.powMod exponent m) (·.held owner n) := by
  unfold BigInt.powMod
  refine .bind (forModulus_settles hm) fun r hr => ?_
  have h : Settles owner n 0 (r.powMod b exponent) (·.held owner n) :=
    powMod_settles (forModulus_nonzero hm r hr) b exponent
  refine .step (x := (r.powMod b exponent).run) h (Nat.zero_le _) ?_
  refine .step (release_settles r) (by omega) (.nil ?_)
  change _ = Attempt.resultHeld (·.held owner n) (r.powMod b exponent).outcome
  omega

end Answers

end Reducer

end CryptoPrimitives
