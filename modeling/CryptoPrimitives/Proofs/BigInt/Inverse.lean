import CryptoPrimitives.Proofs.BigInt.Euclid
import Mathlib.Data.Int.ModEq

/-!
# Inverses

The loop for the inverse divides as Euclid's does and follows one coefficient along: each remainder
is its coefficient times the number to invert, up to multiples of the modulus. So when the loop ends
with a remainder of 1, its coefficient is an inverse, and there is none when it ends with another.
-/

set_option autoImplicit false

namespace CryptoPrimitives.BigInt

/-! ## The loop -/

section Loop

variable [Rendition]

abbrev BezoutLoops : Nat → Bezout → Bezout → Prop :=
  Attempt.Loops (fun e => e.r.isZero) bezoutStep

structure Coefficients (a m : Int) (e : Bezout) : Prop where
  remainders : Remainders (Int.gcd a m) (e.oldR, e.r)
  canonical : Canonical e.oldS ∧ Canonical e.s
  oldR_modEq : e.oldR.toInt ≡ e.oldS.toInt * a [ZMOD m]
  r_modEq : e.r.toInt ≡ e.s.toInt * a [ZMOD m]

theorem Coefficients.step {a m : Int} {e : Bezout} (h : Coefficients a m e)
    (hgo : e.r.isZero = false) :
    ∃ next, (bezoutStep e).outcome = .ok next ∧ Coefficients a m next ∧
      next.r.magnitude < e.r.magnitude := by
  obtain ⟨hold, hr⟩ := h.remainders.canonical
  obtain ⟨hnonneg, hrnonneg⟩ := h.remainders.nonneg
  obtain ⟨q, r, hok, hq, hrest, hdiv⟩ := divMod_outcome (s := e.oldR) (t := e.r) hr
    (isZero_false hr hgo)
  have hprod := mul_represents hq h.canonical.2
  have hdiff := sub_represents h.canonical.1 hprod.canonical
  refine ⟨⟨e.r, r, e.s, (e.oldS.sub (q.mul e.s).val).val⟩, ?_, ⟨⟨⟨hr, hrest⟩,
    ⟨hrnonneg, hdiv.rest_nonneg hnonneg⟩, hdiv.gcd_eq.trans h.remainders.common⟩,
    ⟨h.canonical.2, hdiff.canonical⟩, h.r_modEq, ?_⟩, hdiv.magnitude_lt⟩
  · unfold bezoutStep
    rw [Attempt.outcome_bind_ok _ hok]
    rfl
  · have hvalue : r.toInt = e.oldR.toInt - q.toInt * e.r.toInt := by
      have hv := hdiv.value
      omega
    have hsum := h.oldR_modEq.sub (h.r_modEq.mul_left q.toInt)
    rw [hdiff.toInt_eq, hprod.toInt_eq, hvalue]
    exact hsum.trans (by rw [← mul_assoc, ← sub_mul])

theorem Coefficients.loops {a m : Int} {e : Bezout} (h : Coefficients a m e) :
    ∃ n last, n ≤ e.r.magnitude ∧ BezoutLoops n e last ∧ Coefficients a m last :=
  Attempt.loops_of_measure (fun e => e.r.magnitude) (fun _ he hgo => he.step hgo) h

theorem bezout_of_loops {n : Nat} {e last : Bezout} (h : BezoutLoops n e last) (spare : Nat) :
    (bezout (n + spare) e).outcome = .ok last := by
  have hstop : ∀ steps (e : Bezout), e.r.isZero = true → (bezout steps e).outcome = .ok e := by
    intro steps e hzero
    cases steps with
    | zero => rfl
    | succ steps =>
      rw [bezout, if_pos hzero]
      rfl
  have hstep : ∀ steps (e next : Bezout), e.r.isZero = false →
      (bezoutStep e).outcome = .ok next →
        (bezout (steps + 1) e).outcome = (bezout steps next).outcome := by
    intro steps e next hgo hok
    rw [bezout, if_neg (Bool.eq_false_iff.mp hgo)]
    exact Attempt.outcome_bind_ok _ hok
  exact h.bounded hstop hstep spare

end Loop

/-! ## The inverse -/

structure Inverse (a m x : Int) : Prop where
  range : 1 ≤ x ∧ x < |m|
  modEq : a * x ≡ 1 [ZMOD |m|]

theorem Inverse.unique {a m x y : Int} (hx : Inverse a m x) (hy : Inverse a m y) : x = y := by
  have hxr := hx.range
  have hyr := hy.range
  have hmod : x ≡ y [ZMOD |m|] :=
    calc x = 1 * x := (one_mul x).symm
      _ ≡ a * y * x [ZMOD |m|] := hy.modEq.symm.mul_right x
      _ = a * x * y := by ring
      _ ≡ 1 * y [ZMOD |m|] := hx.modEq.mul_right y
      _ = y := one_mul y
  rwa [Int.ModEq, Int.emod_eq_of_lt (by omega) hxr.2, Int.emod_eq_of_lt (by omega) hyr.2] at hmod

/-- The residue of an inverse modulo a number above 1 is in the range. -/
theorem inverse_residue {a m x : Int} (hm : 2 ≤ |m|) (hx : x * a ≡ 1 [ZMOD |m|]) :
    Inverse a m (x % |m|) := by
  have hmod : a * (x % |m|) ≡ 1 [ZMOD |m|] := by
    rw [mul_comm]
    exact ((Int.mod_modEq x |m|).mul_right a).trans hx
  have hnonneg := Int.emod_nonneg x (show |m| ≠ 0 by omega)
  refine ⟨⟨?_, Int.emod_lt_of_pos x (by omega)⟩, hmod⟩
  by_contra hsmall
  rw [show x % |m| = 0 by omega, mul_zero, Int.ModEq, Int.zero_emod,
    Int.emod_eq_of_lt (by omega) (by omega)] at hmod
  omega

theorem isOne_iff {x : BigInt} (hx : Canonical x) : x.isOne = true ↔ x.toInt = 1 := by
  have hone := ofLimb_represents 1
  have hunits : (ofLimb 1).val.units = [1] := rfl
  have hsign : (ofLimb 1).val.negative = false := rfl
  have hiff := hx.toInt_eq_iff hone.canonical
  rw [hone.toInt_eq, hunits, hsign] at hiff
  rw [isOne, Bool.and_eq_true, Bool.not_eq_true', beq_iff_eq, ← hiff]
  rfl

theorem gcd_residue (a m : Int) : Int.gcd (a % |m|) |m| = Int.gcd a m := by
  rw [Int.gcd_emod, Int.gcd_def, Int.natAbs_abs, ← Int.gcd_def]

theorem modulus_cases (m : Int) : m = 0 ∨ |m| = 1 ∨ 2 ≤ |m| := by
  by_cases h0 : m = 0
  · exact .inl h0
  · have hpos := abs_pos.mpr h0
    omega

theorem abs_not_one {m : BigInt} (h : 2 ≤ |m.toInt|) : ¬m.abs.val.isOne = true := by
  rw [isOne_iff (abs_canonical m), abs_toInt]
  omega

theorem not_zero_of_two_le {m : BigInt} (hm : Canonical m) (h : 2 ≤ |m.toInt|) :
    ¬m.isZero = true := by
  rw [hm.isZero_iff]
  intro h0
  rw [h0] at h
  exact absurd h (by decide)

section Outcomes

variable [Rendition] {a m : BigInt}

/-! ## The run -/

def bezoutStart (residue m : BigInt) : Bezout := ⟨residue, m.abs.val.copy.val, (ofLimb 1).val, zero⟩

omit [Rendition] in
theorem bezoutStart_coefficients {residue : BigInt} (h : Represents residue (a.toInt % |m.toInt|))
    (h0 : m.toInt ≠ 0) : Coefficients a.toInt m.toInt (bezoutStart residue m) := by
  have hone := ofLimb_represents 1
  have hr : (bezoutStart residue m).r.toInt = |m.toInt| := by
    rw [bezoutStart, copy_toInt, abs_toInt]
  have hpos : 0 < |m.toInt| := abs_pos.mpr h0
  refine ⟨⟨⟨h.canonical, copy_canonical (abs_canonical m)⟩, ⟨?_, ?_⟩, ?_⟩,
    ⟨hone.canonical, zero_represents.canonical⟩, ?_, ?_⟩
  · exact h.toInt_eq ▸ Int.emod_nonneg _ (by omega)
  · exact hr ▸ hpos.le
  · change Int.gcd residue.toInt (bezoutStart residue m).r.toInt = _
    rw [hr, h.toInt_eq, gcd_residue]
  · change residue.toInt ≡ (ofLimb 1).val.toInt * a.toInt [ZMOD m.toInt]
    rw [h.toInt_eq, hone.toInt_eq, Int.emod_abs]
    simpa using Int.mod_modEq a.toInt m.toInt
  · change (bezoutStart residue m).r.toInt ≡ 0 * a.toInt [ZMOD m.toInt]
    rw [hr, zero_mul]
    exact Int.modEq_zero_iff_dvd.mpr ((dvd_abs _ _).mpr (dvd_refl _))

/-- The loop ends with the greatest common divisor and its coefficient, within the bound. -/
theorem bezout_outcome {residue : BigInt} (h : Represents residue (a.toInt % |m.toInt|))
    (h0 : m.toInt ≠ 0) :
    ∃ n last, BezoutLoops n (bezoutStart residue m) last ∧
      (bezout (m.abs.val.magnitude + 1) (bezoutStart residue m)).outcome = .ok last ∧
      Represents last.oldR (Int.gcd a.toInt m.toInt : Int) ∧ Canonical last.oldS ∧
      (Int.gcd a.toInt m.toInt : Int) ≡ last.oldS.toInt * a.toInt [ZMOD m.toInt] := by
  obtain ⟨n, last, hn, hloop, hlast⟩ := (bezoutStart_coefficients h h0).loops
  obtain ⟨spare, hspare⟩ := Nat.exists_eq_add_of_le hn
  have hbound : (bezoutStart residue m).r.magnitude = m.abs.val.magnitude :=
    copy_magnitude m.abs.val
  have hgcd : last.oldR.toInt = (Int.gcd a.toInt m.toInt : Int) :=
    hlast.remainders.last hloop.stops
  refine ⟨n, last, hloop, ?_, ⟨hlast.remainders.canonical.1, hgcd⟩, hlast.canonical.1, ?_⟩
  · rw [← hbound, hspare, Nat.add_assoc]
    exact bezout_of_loops hloop (spare + 1)
  · rw [← hgcd]
    exact hlast.oldR_modEq

/-! ## Answers and refusals -/

theorem modInverse_zero (hm : Canonical m) (h : m.toInt = 0) :
    (a.modInverse m).outcome = .error .divisionByZero := by
  unfold modInverse
  rw [if_pos (hm.isZero_iff.mpr h)]
  rfl

theorem modInverse_one (hm : Canonical m) (h : |m.toInt| = 1) :
    (a.modInverse m).outcome = .error .invalidModulus := by
  have hne : ¬m.isZero = true := by
    rw [hm.isZero_iff]
    intro h0
    rw [h0] at h
    cases h
  have hone : m.abs.val.isOne = true := by
    rw [isOne_iff (abs_canonical m), abs_toInt, h]
  unfold modInverse
  rw [if_neg hne, Attempt.outcome_bind_ok _ (Attempt.outcome_lift _)]
  dsimp only
  rw [if_pos hone]
  rfl

theorem modInverse_residue_zero (hm : Canonical m) (h : 2 ≤ |m.toInt|) {residue : BigInt}
    (hres : (a.emod m.abs.val).outcome = .ok residue) (hzero : residue.isZero = true) :
    (a.modInverse m).outcome = .error .noInverse := by
  unfold modInverse
  rw [if_neg (not_zero_of_two_le hm h), Attempt.outcome_bind_ok _ (Attempt.outcome_lift _)]
  dsimp only
  rw [if_neg (abs_not_one h), Attempt.outcome_bind_ok _ hres, if_pos hzero]
  rfl

/-- After the loop the last remainder decides. -/
theorem modInverse_loop (hm : Canonical m) (h : 2 ≤ |m.toInt|) {residue : BigInt} {last : Bezout}
    (hres : (a.emod m.abs.val).outcome = .ok residue) (hzero : ¬residue.isZero = true)
    (hlast : (bezout (m.abs.val.magnitude + 1) (bezoutStart residue m)).outcome = .ok last) :
    (a.modInverse m).outcome =
      if last.oldR.isOne = true then (last.oldS.emod m.abs.val).outcome else .error .noInverse := by
  unfold bezoutStart at hlast
  unfold modInverse
  rw [if_neg (not_zero_of_two_le hm h), Attempt.outcome_bind_ok _ (Attempt.outcome_lift _)]
  dsimp only
  rw [if_neg (abs_not_one h), Attempt.outcome_bind_ok _ hres, if_neg hzero,
    Attempt.outcome_bind_ok _ (Attempt.outcome_lift _),
    Attempt.outcome_bind_ok _ (Attempt.outcome_lift _), Attempt.outcome_bind_ok _ hlast,
    Attempt.outcome_bind_ok _ (Attempt.outcome_lift _),
    Attempt.outcome_bind_ok _ (Attempt.outcome_lift _)]
  split
  · rw [Attempt.outcome_bind_ok _ (Attempt.outcome_lift _), Attempt.outcome_bind]
    cases (last.oldS.emod m.abs.val).outcome with
    | error e => rfl
    | ok x => rfl
  · rfl

theorem modInverse_outcome (hm : Canonical m) (h : 2 ≤ |m.toInt|) :
    (Int.gcd a.toInt m.toInt ≠ 1 → (a.modInverse m).outcome = .error .noInverse) ∧
      (Int.gcd a.toInt m.toInt = 1 → ∃ x, (a.modInverse m).outcome = .ok x ∧ Canonical x ∧
        Inverse a.toInt m.toInt x.toInt) := by
  have habs := abs_canonical m
  have h0 : m.abs.val.toInt ≠ 0 := by
    rw [abs_toInt]
    omega
  obtain ⟨residue, hres, hrep⟩ := emod_outcome (s := a) habs h0
  rw [abs_toInt] at hrep
  obtain ⟨n, last, -, hlast, hgcd, hcanonical, hmod⟩ :=
    bezout_outcome (a := a) hrep (abs_ne_zero.mp (abs_toInt m ▸ h0))
  by_cases hzero : residue.isZero = true
  · -- A multiple of the modulus: the modulus itself is the greatest common divisor.
    have hcommon : Int.gcd a.toInt m.toInt ≠ 1 := by
      rw [← gcd_residue, ← hrep.toInt_eq, hrep.canonical.isZero_iff.mp hzero, Int.gcd_zero_left]
      omega
    exact ⟨fun _ => modInverse_residue_zero hm h hres hzero, fun h1 => absurd h1 hcommon⟩
  · have hrun := modInverse_loop hm h hres hzero hlast
    have hlastOne : last.oldR.isOne = true ↔ Int.gcd a.toInt m.toInt = 1 := by
      rw [isOne_iff hgcd.canonical, hgcd.toInt_eq]
      omega
    constructor
    · intro hne
      rwa [if_neg (fun h1 => hne (hlastOne.mp h1))] at hrun
    · intro hone
      obtain ⟨x, hok, hx⟩ := emod_outcome (s := last.oldS) habs h0
      rw [if_pos (hlastOne.mpr hone), hok] at hrun
      refine ⟨x, hrun, hx.canonical, ?_⟩
      rw [hx.toInt_eq, abs_toInt]
      apply inverse_residue h
      rw [hone] at hmod
      rw [Int.modEq_iff_dvd] at hmod ⊢
      rw [abs_dvd, ← neg_sub, dvd_neg]
      exact hmod

/-- For every modulus but zero the loop ends, none of its divisions refused, before its bound. -/
theorem inverse_loop_ends (a : BigInt) (h0 : m.toInt ≠ 0) :
    ∃ residue, (a.emod m.abs.val).outcome = .ok residue ∧
      ∃ n last, BezoutLoops n (bezoutStart residue m) last ∧
        (bezout (m.abs.val.magnitude + 1) (bezoutStart residue m)).outcome = .ok last := by
  have habs : m.abs.val.toInt ≠ 0 := by
    rw [abs_toInt]
    exact abs_ne_zero.mpr h0
  obtain ⟨residue, hres, hrep⟩ := emod_outcome (s := a) (abs_canonical m) habs
  rw [abs_toInt] at hrep
  obtain ⟨n, last, hends, hlast, -⟩ := bezout_outcome hrep h0
  exact ⟨residue, hres, n, last, hends, hlast⟩

/-- Each refusal has its one cause, and otherwise the answer is the inverse in the range of the
modulus, of which there is only one. For every modulus but zero the loop ends, none of its divisions
refused, and the bounded loop ends with it. -/
theorem inverse_or_refusal (a m : BigInt) (hm : Canonical m) :
    ((a.modInverse m).outcome = .error .divisionByZero ↔ m.toInt = 0) ∧
    ((a.modInverse m).outcome = .error .invalidModulus ↔ |m.toInt| = 1) ∧
    ((a.modInverse m).outcome = .error .noInverse ↔
      2 ≤ |m.toInt| ∧ Int.gcd a.toInt m.toInt ≠ 1) ∧
    (2 ≤ |m.toInt| → Int.gcd a.toInt m.toInt = 1 →
      ∃ x, (a.modInverse m).outcome = .ok x ∧ Canonical x ∧ Inverse a.toInt m.toInt x.toInt ∧
        ∀ y, Inverse a.toInt m.toInt y → y = x.toInt) ∧
    (m.toInt ≠ 0 → ∃ residue, (a.emod m.abs.val).outcome = .ok residue ∧
      ∃ n last, BezoutLoops n (bezoutStart residue m) last ∧
        (bezout (m.abs.val.magnitude + 1) (bezoutStart residue m)).outcome = .ok last) := by
  have hloop : m.toInt ≠ 0 → _ := inverse_loop_ends a
  rcases modulus_cases m.toInt with h | h | h
  · rw [modInverse_zero hm h]
    exact ⟨by simp [h], by simp [h], by simp [h], by simp [h], hloop⟩
  · have hne : m.toInt ≠ 0 := by
      intro h0
      rw [h0] at h
      cases h
    rw [modInverse_one hm h]
    exact ⟨by simp [hne], by simp [h], by simp [h], by simp [h], hloop⟩
  · obtain ⟨hnone, hsome⟩ := modInverse_outcome (a := a) hm h
    have hne : m.toInt ≠ 0 := by
      intro h0
      rw [h0] at h
      exact absurd h (by decide)
    have hnotone : |m.toInt| ≠ 1 := by omega
    by_cases hg : Int.gcd a.toInt m.toInt = 1
    · obtain ⟨x, hok, hx, hinv⟩ := hsome hg
      rw [hok]
      refine ⟨by simp [hne], by simp [hnotone], by simp [hg], fun _ _ => ?_, hloop⟩
      exact ⟨x, rfl, hx, hinv, fun y hy => hy.unique hinv⟩
    · rw [hnone hg]
      exact ⟨by simp [hne], by simp [hnotone], by simp [h, hg], fun _ h1 => absurd h1 hg, hloop⟩

end Outcomes

/-- A negative number modulo a negative one that it exceeds. -/
theorem inverse_or_refusal_negative :
    let a : BigInt := ⟨[10], 1, true, .secure⟩
    let m : BigInt := ⟨[7], 1, true, .secure⟩
    Canonical m ∧ 2 ≤ |m.toInt| ∧ Int.gcd a.toInt m.toInt = 1 ∧
      ∃ x, (a.modInverse m).outcome = .ok x ∧ Inverse a.toInt m.toInt x.toInt ∧ x.toInt = 2 := by
  intro a m
  have hm : Canonical m := ⟨by decide, rfl, by decide, by decide⟩
  have htwo : 2 ≤ |m.toInt| := by decide
  have hone : Int.gcd a.toInt m.toInt = 1 := by decide
  obtain ⟨-, -, -, hsome, -⟩ := inverse_or_refusal a m hm
  obtain ⟨x, hok, -, hx, hunique⟩ := hsome htwo hone
  have hinverse : Inverse a.toInt m.toInt 2 := ⟨by decide, by decide⟩
  exact ⟨hm, htwo, hone, x, hok, hx, (hunique 2 hinverse).symm⟩

end CryptoPrimitives.BigInt
