import CryptoPrimitives.Proofs.Residue.Division
import CryptoPrimitives.Proofs.Residue.Montgomery
import CryptoPrimitives.Residue.Reducer

/-!
# Reducers

Whichever way a reducer works, its answers are the residues of the integers, so two reducers for one
modulus never differ.
-/

set_option autoImplicit false

namespace CryptoPrimitives.Reducer

open BigInt (Canonical Represents)

def powerAnswer (base exponent n : Int) : Except Fault Int :=
  if exponent < 0 then .error .invalidInput else .ok (base ^ exponent.toNat % |n|)

theorem powerAnswer_range {base exponent n y : Int} (h0 : n ≠ 0)
    (hy : powerAnswer base exponent n = .ok y) : 0 ≤ y ∧ y < |n| := by
  have hpos := abs_pos.mpr h0
  unfold powerAnswer at hy
  split at hy
  · cases hy
  · cases hy
    exact ⟨Int.emod_nonneg _ (by omega), Int.emod_lt_of_pos _ hpos⟩

section Answers

variable [Rendition]

inductive Made (m : BigInt) : Reducer → Prop
  | division {r : DivisionReducer} :
      (DivisionReducer.create m).outcome = .ok r → Made m (.division r)
  | montgomery {c : MontgomeryContext} :
      (MontgomeryContext.create m).outcome = .ok c → Made m (.montgomery c)
  | chosen {r : Reducer} : (forModulus m).outcome = .ok r → Made m r

inductive Valid (m : Int) : Reducer → Prop
  | division {r : DivisionReducer} : r.Valid → r.modulus.toInt = |m| → Valid m (.division r)
  | montgomery {c : MontgomeryContext} : c.Valid → c.modulus.toInt = |m| → Valid m (.montgomery c)

/-! ## What is made is valid -/

variable {m : BigInt}

theorem montgomery_accepts_iff (hm : Canonical m) (h0 : m.toInt ≠ 0) :
    (∃ c, (MontgomeryContext.create m).outcome = .ok c) ↔ m.magnitude % 2 = 1 := by
  constructor
  · rintro ⟨c, hc⟩
    by_contra hodd
    rw [MontgomeryContext.create_even hm h0 (by omega)] at hc
    cases hc
  · intro hodd
    obtain ⟨c, hok, -, -⟩ := MontgomeryContext.create_valid hm hodd
    exact ⟨c, hok⟩

theorem chosen_outcome (hm : Canonical m) (h0 : m.toInt ≠ 0) :
    ∃ r, (forModulus m).outcome = .ok r ∧ Valid m.toInt r := by
  have hzero : ¬ m.isZero = true := fun hz => h0 (hm.isZero_iff.mp hz)
  unfold forModulus
  rw [if_neg hzero]
  by_cases hodd : m.isOdd = true
  · obtain ⟨c, hok, hv, habs⟩ := MontgomeryContext.create_valid hm ((BigInt.isOdd_iff hm).mp hodd)
    rw [if_pos hodd, Attempt.outcome_bind_ok _ hok]
    exact ⟨_, rfl, .montgomery hv habs⟩
  · obtain ⟨r, hok, hv, habs⟩ := DivisionReducer.create_valid hm h0
    rw [if_neg hodd, Attempt.outcome_bind_ok _ hok]
    exact ⟨_, rfl, .division hv habs⟩

theorem made_valid (hm : Canonical m) (h0 : m.toInt ≠ 0) {r : Reducer} (hr : Made m r) :
    Valid m.toInt r := by
  cases hr with
  | division hok =>
    obtain ⟨r', hok', hv, habs⟩ := DivisionReducer.create_valid hm h0
    rw [hok] at hok'
    cases hok'
    exact .division hv habs
  | montgomery hok =>
    obtain ⟨c', hok', hv, habs⟩ := MontgomeryContext.create_valid hm
      ((montgomery_accepts_iff hm h0).mp ⟨_, hok⟩)
    rw [hok] at hok'
    cases hok'
    exact .montgomery hv habs
  | chosen hok =>
    obtain ⟨r', hok', hv⟩ := chosen_outcome hm h0
    rw [hok] at hok'
    cases hok'
    exact hv

/-! ## Answers of a valid reducer -/

variable {n : Int} {r : Reducer}

theorem reduce_answer (hr : Valid n r) (x : BigInt) :
    (r.reduce x).answer = .ok (x.toInt % |n|) := by
  cases hr with
  | division hv habs =>
    obtain ⟨y, hok, hy⟩ := DivisionReducer.reduce_outcome hv (x := x)
    rw [← habs, ← hy.toInt_eq]
    exact Attempt.answer_ok hok
  | montgomery hv habs =>
    obtain ⟨y, hok, hy⟩ := MontgomeryContext.reduce_outcome hv (x := x)
    rw [← habs, ← MontgomeryContext.residue_cast hv, ← hy.toInt_eq]
    exact Attempt.answer_ok hok

theorem mulMod_answer (hr : Valid n r) {a b : BigInt} (ha : Canonical a) (hb : Canonical b) :
    (r.mulMod a b).answer = .ok (a.toInt * b.toInt % |n|) := by
  cases hr with
  | division hv habs =>
    obtain ⟨y, hok, hy⟩ := DivisionReducer.mulMod_outcome hv ha hb
    rw [← habs, ← hy.toInt_eq]
    exact Attempt.answer_ok hok
  | montgomery hv habs =>
    obtain ⟨y, hok, hy⟩ := MontgomeryContext.mulMod_outcome hv (a := a) (b := b)
    rw [← habs, ← hy.toInt_eq]
    exact Attempt.answer_ok hok

theorem powMod_answer (hr : Valid n r) (b : BigInt) {exponent : BigInt}
    (he : Canonical exponent) :
    (r.powMod b exponent).answer = powerAnswer b.toInt exponent.toInt n := by
  by_cases hsign : exponent.negative = true
  · rw [powerAnswer, if_pos (he.negative_iff.mp hsign)]
    cases hr with
    | division hv habs => exact Attempt.answer_error (DivisionReducer.powMod_negative hsign)
    | montgomery hv habs => exact Attempt.answer_error (MontgomeryContext.pow_negative hsign)
  · have hpos : exponent.negative = false := Bool.eq_false_iff.mpr hsign
    have hmag : exponent.toInt.toNat = exponent.magnitude := by
      rw [BigInt.toInt_eq, hpos]
      rfl
    rw [powerAnswer, if_neg (fun hlt => hsign (he.negative_iff.mpr hlt)), hmag]
    cases hr with
    | division hv habs =>
      obtain ⟨y, hok, hy⟩ := DivisionReducer.powMod_outcome hv (b := b) hpos
      rw [← habs, ← hy.toInt_eq]
      exact Attempt.answer_ok hok
    | montgomery hv habs =>
      obtain ⟨y, hok, hy⟩ := MontgomeryContext.pow_outcome hv (b := b) hpos
      rw [← habs, ← hy.toInt_eq]
      exact Attempt.answer_ok hok

theorem bigInt_powMod_answer (hm : Canonical m) (h0 : m.toInt ≠ 0) (b : BigInt)
    {exponent : BigInt} (he : Canonical exponent) :
    (b.powMod exponent m).answer = powerAnswer b.toInt exponent.toInt m.toInt := by
  obtain ⟨r, hok, hv⟩ := chosen_outcome hm h0
  rw [← powMod_answer hv b he]
  unfold BigInt.powMod Attempt.answer
  rw [Attempt.outcome_bind_ok _ hok]
  rfl

/-! ## Every reducer for a modulus -/

structure Residues (m : Int) (r : Reducer) : Prop where
  reduce : ∀ x : BigInt, Canonical x → (r.reduce x).answer = .ok (x.toInt % |m|)
  mulMod : ∀ a b : BigInt, Canonical a → Canonical b →
    (r.mulMod a b).answer = .ok (a.toInt * b.toInt % |m|)
  powMod : ∀ b exponent : BigInt, Canonical b → Canonical exponent →
    (r.powMod b exponent).answer = powerAnswer b.toInt exponent.toInt m

/-- Long division takes every modulus but zero, Montgomery form the odd ones. All that take it
answer with the residues of the integers, all in the range of the modulus. -/
theorem reducers_answer_residues (m : BigInt) (hm : Canonical m) (h0 : m.toInt ≠ 0) :
    (∃ d, (DivisionReducer.create m).outcome = .ok d) ∧
    ((∃ c, (MontgomeryContext.create m).outcome = .ok c) ↔ m.toInt % 2 = 1) ∧
    (∃ r, (forModulus m).outcome = .ok r) ∧
    (∀ r, Made m r → Residues m.toInt r) ∧
    (∀ b exponent : BigInt, Canonical b → Canonical exponent →
      (b.powMod exponent m).answer = powerAnswer b.toInt exponent.toInt m.toInt) ∧
    (∀ r, Made m r → ∀ x a b exponent : BigInt, Canonical x → Canonical a → Canonical b →
      Canonical exponent → ∀ y : Int, (r.reduce x).answer = .ok y ∨
        (r.mulMod a b).answer = .ok y ∨ (r.powMod b exponent).answer = .ok y →
        0 ≤ y ∧ y < |m.toInt|) ∧
    (∀ r s, Made m r → Made m s → ∀ x a b exponent : BigInt, Canonical x → Canonical a →
      Canonical b → Canonical exponent →
        (r.reduce x).answer = (s.reduce x).answer ∧
        (r.mulMod a b).answer = (s.mulMod a b).answer ∧
        (r.powMod b exponent).answer = (s.powMod b exponent).answer) := by
  have hres : ∀ r, Made m r → Residues m.toInt r := by
    intro r hr
    have hv := made_valid hm h0 hr
    exact ⟨fun x _ => reduce_answer hv x, fun a b ha hb => mulMod_answer hv ha hb,
      fun b exponent _ he => powMod_answer hv b he⟩
  have hpos := abs_pos.mpr h0
  obtain ⟨d, hd, -, -⟩ := DivisionReducer.create_valid hm h0
  obtain ⟨chosen, hchosen, -⟩ := chosen_outcome hm h0
  have hodd : m.magnitude % 2 = 1 ↔ m.toInt % 2 = 1 := by
    rw [← BigInt.toInt_natAbs]
    omega
  refine ⟨⟨d, hd⟩, (montgomery_accepts_iff hm h0).trans hodd, ⟨chosen, hchosen⟩, hres, ?_, ?_, ?_⟩
  · intro b exponent _ he
    exact bigInt_powMod_answer hm h0 b he
  · intro r hr x a b exponent hx ha hb he y hy
    rw [(hres r hr).reduce x hx, (hres r hr).mulMod a b ha hb,
      (hres r hr).powMod b exponent hb he] at hy
    rcases hy with hy | hy | hy
    · cases hy
      exact ⟨Int.emod_nonneg _ (by omega), Int.emod_lt_of_pos _ hpos⟩
    · cases hy
      exact ⟨Int.emod_nonneg _ (by omega), Int.emod_lt_of_pos _ hpos⟩
    · exact powerAnswer_range h0 hy
  · intro r s hr hs x a b exponent hx ha hb he
    rw [(hres r hr).reduce x hx, (hres s hs).reduce x hx, (hres r hr).mulMod a b ha hb,
      (hres s hs).mulMod a b ha hb, (hres r hr).powMod b exponent hb he,
      (hres s hs).powMod b exponent hb he]
    exact ⟨rfl, rfl, rfl⟩

end Answers

/-- The cube of 7 modulo -15, by the reducer that is chosen. -/
theorem reducers_answer_odd_negative :
    let m : BigInt := ⟨[15], 1, true, .secure⟩
    let seven : BigInt := ⟨[7], 1, false, .secure⟩
    let three : BigInt := ⟨[3], 1, false, .secure⟩
    Canonical m ∧ m.toInt ≠ 0 ∧ Canonical seven ∧ Canonical three ∧
      (seven.powMod three m).answer = .ok 13 := by
  intro m seven three
  have hm : Canonical m := ⟨by decide, rfl, by decide, by decide⟩
  have h7 : Canonical seven := ⟨by decide, rfl, by decide, by decide⟩
  have h3 : Canonical three := ⟨by decide, rfl, by decide, by decide⟩
  have h0 : m.toInt ≠ 0 := by decide
  have hpow : powerAnswer seven.toInt three.toInt m.toInt = .ok 13 := by decide
  rw [← hpow]
  exact ⟨hm, h0, h7, h3, (reducers_answer_residues m hm h0).2.2.2.2.1 seven three h7 h3⟩

end CryptoPrimitives.Reducer
