import CryptoPrimitives.Proofs.BigInt.Made
import CryptoPrimitives.Residue.Reducer

/-!
# The numbers that reducers keep and make

A reducer keeps its modulus, and in Montgomery form the square of the radix. Each answer is a new
number, canonical for any operands and any constants.
-/

set_option autoImplicit false

namespace CryptoPrimitives

namespace Reducer

open Attempt (Yields)
open BigInt (Canonical)

def numbers : Reducer → List BigInt
  | division r => [r.modulus]
  | montgomery c => [c.modulus, c.rSquared]

def Sound (r : Reducer) : Prop := ∀ x ∈ r.numbers, Canonical x

theorem Sound.modulus {r : Reducer} (h : r.Sound) : Canonical r.modulus := by
  cases r with
  | division r => exact h r.modulus List.mem_cons_self
  | montgomery c => exact h c.modulus List.mem_cons_self

theorem division_yields (m : BigInt) :
    Yields (fun r => Sound (.division r)) (DivisionReducer.create m) := by
  unfold DivisionReducer.create
  by_cases h0 : m.isZero = true
  · rw [if_pos h0]
    exact .refused _ _
  · rw [if_neg h0]
    refine .bind (.lift (BigInt.abs_canonical m)) fun modulus h => ?_
    exact .value (by simpa [Sound, numbers] using h)

variable [Rendition]

theorem montgomery_yields (m : BigInt) :
    Yields (fun c => Sound (.montgomery c)) (MontgomeryContext.create m) := by
  unfold MontgomeryContext.create
  by_cases h0 : m.isZero = true
  · rw [if_pos h0]
    exact .refused _ _
  · rw [if_neg h0]
    by_cases heven : m.isEven = true
    · rw [if_pos heven]
      exact .refused _ _
    · rw [if_neg heven]
      refine .bind (.lift (BigInt.abs_canonical m)) fun modulus hm => ?_
      refine .after fun one => .after fun square => .after fun _ => ?_
      refine .bind (BigInt.emod_yields square modulus) fun rSquared hr => .after fun _ => ?_
      exact .value (by simp [Sound, numbers, hm, hr])

theorem forModulus_yields (m : BigInt) : Yields Sound (forModulus m) := by
  unfold forModulus
  by_cases h0 : m.isZero = true
  · rw [if_pos h0]
    exact .refused _ _
  · rw [if_neg h0]
    split
    · exact .bind (montgomery_yields m) fun c hc => .value hc
    · exact .bind (division_yields m) fun r hr => .value hr

end Reducer

namespace DivisionReducer

open Attempt (Yields)
open BigInt (Canonical)

variable [Rendition]

theorem mulMod_yields (r : DivisionReducer) (a b : BigInt) :
    Yields Canonical (r.mulMod a b) := by
  unfold mulMod
  refine .after fun product => .bind (BigInt.emod_yields product r.modulus) fun residue h => ?_
  exact .after fun _ => .value h

theorem powerLoop_yields (r : DivisionReducer) (b exponent : BigInt) (bits : Nat) {acc : BigInt}
    (hacc : Canonical acc) : Yields Canonical (r.powerLoop b exponent bits acc) := by
  induction bits generalizing acc with
  | zero => exact .value hacc
  | succ bits ih =>
    unfold powerLoop
    refine .bind (r.mulMod_yields acc acc) fun squared hs => .after fun _ => ?_
    split
    · exact .bind (r.mulMod_yields squared b) fun next hn => .after fun _ => ih hn
    · exact ih hs

theorem powMod_yields (r : DivisionReducer) (b exponent : BigInt) :
    Yields Canonical (r.powMod b exponent) := by
  unfold powMod
  split
  · exact .refused _ _
  · refine .after fun residue => .after fun one => ?_
    refine .bind (BigInt.emod_yields one r.modulus) fun start hs => .after fun _ => ?_
    refine .bind (r.powerLoop_yields residue exponent _ hs) fun power h => ?_
    exact .after fun _ => .value h

end DivisionReducer

namespace MontgomeryContext

open Attempt (Yields)
open BigInt (Canonical)

variable [Rendition] (c : MontgomeryContext)

theorem mulFitting_canonical (a b : BigInt) : Canonical (c.mulFitting a b).val :=
  BigInt.fresh_canonical _ _

theorem divR_canonical (a : BigInt) : Canonical (c.divR a).val :=
  c.mulFitting_canonical a (BigInt.ofLimb 1).val

theorem toMontgomery_yields (a : BigInt) : Yields Canonical (c.toMontgomery a) := by
  unfold toMontgomery
  refine .after fun residue => ?_
  refine .bind (.lift (c.mulFitting_canonical residue c.rSquared)) fun form h => ?_
  exact .after fun _ => .value h

theorem pow_yields (b exponent : BigInt) : Yields Canonical (c.pow b exponent) := by
  unfold pow
  split
  · exact .refused _ _
  · refine .after fun one => .after fun oneForm => .after fun _ => .after fun baseForm => ?_
    refine .after fun power => .after fun _ => .after fun _ => ?_
    refine .bind (.lift (c.divR_canonical power)) fun r h => ?_
    exact .after fun _ => .value h

theorem mulMod_yields (a b : BigInt) : Yields Canonical (c.mulMod a b) := by
  unfold mulMod
  refine .after fun a => .after fun b => .after fun product => .after fun _ => .after fun _ => ?_
  refine .bind (.lift (c.mulFitting_canonical product c.rSquared)) fun r h => ?_
  exact .after fun _ => .value h

theorem mul_canonical (a b : BigInt) (x : Booked BigInt) (hx : c.mul a b = .ok x) :
    Canonical x.val := by
  unfold mul fits Units.Checked.demand at hx
  split at hx
  · split at hx
    · cases hx
      exact c.mulFitting_canonical a b
    · cases hx
  · cases hx

theorem fromMontgomery_canonical (a : BigInt) (x : Booked BigInt)
    (hx : c.fromMontgomery a = .ok x) : Canonical x.val := by
  unfold fromMontgomery fits Units.Checked.demand at hx
  split at hx
  · cases hx
    exact c.divR_canonical a
  · cases hx

end MontgomeryContext

namespace Reducer

open Attempt (Yields)
open BigInt (Canonical)

variable [Rendition]

theorem reduce_yields (r : Reducer) (x : BigInt) : Yields Canonical (r.reduce x) := by
  cases r with
  | division r => exact BigInt.emod_yields x r.modulus
  | montgomery c => exact BigInt.emod_yields x c.modulus

theorem mulMod_yields (r : Reducer) (a b : BigInt) : Yields Canonical (r.mulMod a b) := by
  cases r with
  | division r => exact r.mulMod_yields a b
  | montgomery c => exact c.mulMod_yields a b

theorem powMod_yields (r : Reducer) (b exponent : BigInt) :
    Yields Canonical (r.powMod b exponent) := by
  cases r with
  | division r => exact r.powMod_yields b exponent
  | montgomery c => exact c.pow_yields b exponent

theorem bigInt_powMod_yields (b exponent m : BigInt) :
    Yields Canonical (b.powMod exponent m) := by
  unfold BigInt.powMod
  refine .after fun r => ?_
  intro x hx
  exact r.powMod_yields b exponent x hx

end Reducer

end CryptoPrimitives