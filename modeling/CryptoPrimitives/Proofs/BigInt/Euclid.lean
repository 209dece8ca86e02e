import CryptoPrimitives.BigInt.Euclid
import CryptoPrimitives.Proofs.BigInt.Division
import CryptoPrimitives.Proofs.BigInt.Integers

/-!
# Euclid's algorithm

The loop of divisions without a bound on its steps. Each division leaves a smaller divisor, so from
any two numbers the loop ends, none of its divisions refused, and the bounded one ends with it. The
remainders of two numbers that are not negative keep their common divisors.
-/

set_option autoImplicit false

namespace CryptoPrimitives

/-! ## Loops -/

namespace Attempt

variable {σ : Type} {stop : σ → Bool} {step : σ → Attempt σ}

inductive Loops (stop : σ → Bool) (step : σ → Attempt σ) : Nat → σ → σ → Prop
  | stopped {s : σ} (h : stop s = true) : Loops stop step 0 s s
  | stepped {n : Nat} {s s' t : σ} (h : stop s = false) (hstep : (step s).outcome = .ok s')
      (hrest : Loops stop step n s' t) : Loops stop step (n + 1) s t

theorem Loops.stops {n : Nat} {s t : σ} (h : Loops stop step n s t) : stop t = true := by
  induction h with
  | stopped h => exact h
  | stepped h hstep hrest ih => exact ih

/-- A step that keeps an invariant and makes a measure smaller, taken until the loop stops. -/
theorem loops_of_measure {I : σ → Prop} (measure : σ → Nat)
    (hstep : ∀ s, I s → stop s = false →
      ∃ s', (step s).outcome = .ok s' ∧ I s' ∧ measure s' < measure s) {s : σ} (hs : I s) :
    ∃ n t, n ≤ measure s ∧ Loops stop step n s t ∧ I t := by
  induction hm : measure s using Nat.strong_induction_on generalizing s with
  | _ m ih =>
    cases hstop : stop s with
    | true => exact ⟨0, s, Nat.zero_le _, .stopped hstop, hs⟩
    | false =>
      obtain ⟨s', hok, hs', hlt⟩ := hstep s hs hstop
      obtain ⟨n, t, hn, hloop, ht⟩ := ih (measure s') (hm ▸ hlt) hs' rfl
      exact ⟨n + 1, t, by omega, .stepped hstop hok hloop, ht⟩

/-- With steps to spare a bounded loop ends with the unbounded one. -/
theorem Loops.bounded {τ : Type} {loop : Nat → σ → Attempt τ} {answer : σ → τ}
    (hstop : ∀ steps s, stop s = true → (loop steps s).outcome = .ok (answer s))
    (hstep : ∀ steps s s', stop s = false → (step s).outcome = .ok s' →
      (loop (steps + 1) s).outcome = (loop steps s').outcome)
    {n : Nat} {s t : σ} (h : Loops stop step n s t) (spare : Nat) :
    (loop (n + spare) s).outcome = .ok (answer t) := by
  induction h with
  | stopped h => exact hstop _ _ h
  | stepped h hok hrest ih =>
    rw [Nat.add_right_comm, hstep _ _ _ h hok]
    exact ih

end Attempt

namespace BigInt

/-! ## Remainders -/

theorem Truncated.rest_nonneg {s t q r : Int} (h : Truncated s t q r) (hs : 0 ≤ s) : 0 ≤ r := by
  rcases h.rest_sign with h0 | hsign
  · omega
  · apply Int.sign_nonneg_iff.mp
    rw [hsign]
    exact Int.sign_nonneg_iff.mpr hs

/-- The divisor and the remainder have the common divisors of dividend and divisor. -/
theorem Truncated.gcd_eq {s t q r : Int} (h : Truncated s t q r) : Int.gcd t r = Int.gcd s t := by
  rw [← h.value, Int.gcd_comm (q * t + r), Int.gcd_mul_right_add_right]

theorem Truncated.magnitude_lt {s q : Int} {x y : BigInt} (h : Truncated s x.toInt q y.toInt) :
    y.magnitude < x.magnitude := by
  have hlt := h.rest_lt
  rw [Int.abs_eq_natAbs, Int.abs_eq_natAbs, toInt_natAbs, toInt_natAbs] at hlt
  exact Int.ofNat_lt.mp hlt

theorem isZero_false {x : BigInt} (hx : Canonical x) (h : x.isZero = false) : x.toInt ≠ 0 := by
  intro h0
  rw [hx.isZero_iff.mpr h0] at h
  cases h

/-! ## The loop -/

section Loop

variable [Rendition]

abbrev EuclidLoops : Nat → BigInt × BigInt → BigInt × BigInt → Prop :=
  Attempt.Loops (fun pair => pair.2.isZero) fun pair => euclidStep pair.1 pair.2

theorem euclidStep_outcome {a b : BigInt} (hb : Canonical b) (h0 : b.toInt ≠ 0) :
    ∃ q r, (euclidStep a b).outcome = .ok (b, r) ∧ Canonical r ∧
      Truncated a.toInt b.toInt q r.toInt := by
  obtain ⟨q, r, hok, -, hr, hdiv⟩ := divMod_outcome (s := a) hb h0
  refine ⟨q.toInt, r, ?_, hr, hdiv⟩
  unfold euclidStep
  rw [Attempt.outcome_bind_ok _ hok]
  rfl

structure Remainders (d : Nat) (pair : BigInt × BigInt) : Prop where
  canonical : Canonical pair.1 ∧ Canonical pair.2
  nonneg : 0 ≤ pair.1.toInt ∧ 0 ≤ pair.2.toInt
  common : Int.gcd pair.1.toInt pair.2.toInt = d

theorem Remainders.step {d : Nat} {pair : BigInt × BigInt} (h : Remainders d pair)
    (hgo : pair.2.isZero = false) :
    ∃ next, (euclidStep pair.1 pair.2).outcome = .ok next ∧ Remainders d next ∧
      next.2.magnitude < pair.2.magnitude := by
  obtain ⟨q, r, hok, hr, hdiv⟩ :=
    euclidStep_outcome (a := pair.1) h.canonical.2 (isZero_false h.canonical.2 hgo)
  refine ⟨(pair.2, r), hok, ⟨⟨h.canonical.2, hr⟩, ⟨h.nonneg.2, ?_⟩, ?_⟩, hdiv.magnitude_lt⟩
  · exact hdiv.rest_nonneg h.nonneg.1
  · exact hdiv.gcd_eq.trans h.common

omit [Rendition] in
/-- The last divisor that is not zero is the greatest common divisor. -/
theorem Remainders.last {d : Nat} {pair : BigInt × BigInt} (h : Remainders d pair)
    (hstop : pair.2.isZero = true) : pair.1.toInt = d := by
  have hcommon := h.common
  rw [h.canonical.2.isZero_iff.mp hstop, Int.gcd_zero_right] at hcommon
  rw [← hcommon, Int.natAbs_of_nonneg h.nonneg.1]

theorem Remainders.loops {d : Nat} {pair : BigInt × BigInt} (h : Remainders d pair) :
    ∃ n last, n ≤ pair.2.magnitude ∧ EuclidLoops n pair last ∧ Remainders d last :=
  Attempt.loops_of_measure (fun pair => pair.2.magnitude) (fun _ hpair hgo => hpair.step hgo) h

theorem euclid_of_loops {n : Nat} {pair last : BigInt × BigInt} (h : EuclidLoops n pair last)
    (spare : Nat) : (euclid (n + spare) pair.1 pair.2).outcome = .ok last.1 := by
  have hstop : ∀ steps (pair : BigInt × BigInt), pair.2.isZero = true →
      (euclid steps pair.1 pair.2).outcome = .ok pair.1 := by
    intro steps pair hzero
    cases steps with
    | zero => rfl
    | succ steps =>
      rw [euclid, if_pos hzero]
      rfl
  have hstep : ∀ steps (pair next : BigInt × BigInt), pair.2.isZero = false →
      (euclidStep pair.1 pair.2).outcome = .ok next →
        (euclid (steps + 1) pair.1 pair.2).outcome = (euclid steps next.1 next.2).outcome := by
    intro steps pair next hgo hok
    rw [euclid, if_neg (Bool.eq_false_iff.mp hgo), Attempt.outcome_bind_ok _ hok]
  exact h.bounded hstop hstep spare

end Loop

/-! ## The greatest common divisor -/

structure Greatest (a b g : Int) : Prop where
  positive : 0 < g
  divides_left : g ∣ a
  divides_right : g ∣ b
  greatest : ∀ d, d ∣ a → d ∣ b → d ∣ g

theorem greatest_gcd {a b : Int} (h : ¬(a = 0 ∧ b = 0)) : Greatest a b (Int.gcd a b) := by
  refine ⟨?_, Int.gcd_dvd_left .., Int.gcd_dvd_right .., fun d ha hb => Int.dvd_coe_gcd ha hb⟩
  have hpos : 0 < Int.gcd a b := Int.gcd_pos_iff.mpr (by tauto)
  exact Int.ofNat_lt.mpr hpos

theorem gcd_abs (a b : Int) : Int.gcd |a| |b| = Int.gcd a b := by
  rw [Int.gcd_def, Int.gcd_def, Int.natAbs_abs, Int.natAbs_abs]

theorem abs_compare_iff (s t : BigInt) :
    s.abs.val.compare t.abs.val = .lt ↔ |s.toInt| < |t.toInt| := by
  have hs : s.abs.val.magnitude = s.magnitude := copy_magnitude s
  have ht : t.abs.val.magnitude = t.magnitude := copy_magnitude t
  have hcompare : s.abs.val.compare t.abs.val = s.abs.val.compareAbs t.abs.val := rfl
  rw [hcompare, compareAbs_lt_iff, hs, ht, Int.abs_eq_natAbs, Int.abs_eq_natAbs, toInt_natAbs,
    toInt_natAbs, Int.ofNat_lt]

section Outcomes

variable [Rendition] {s t : BigInt}

theorem gcd_zero (hs : Canonical s) (ht : Canonical t) (h : s.toInt = 0 ∧ t.toInt = 0) :
    (s.gcd t).outcome = .error .invalidInput := by
  have hboth : (s.isZero && t.isZero) = true := by
    rw [Bool.and_eq_true, hs.isZero_iff, ht.isZero_iff]
    exact h
  unfold gcd
  rw [if_pos hboth]
  rfl

def descending (s t : BigInt) : BigInt × BigInt :=
  if |s.toInt| < |t.toInt| then (t.abs.val, s.abs.val) else (s.abs.val, t.abs.val)

omit [Rendition] in
theorem descending_remainders (s t : BigInt) :
    Remainders (Int.gcd s.toInt t.toInt) (descending s t) := by
  have hs := abs_canonical s
  have ht := abs_canonical t
  have hs0 : 0 ≤ s.abs.val.toInt := by rw [abs_toInt]; exact abs_nonneg _
  have ht0 : 0 ≤ t.abs.val.toInt := by rw [abs_toInt]; exact abs_nonneg _
  unfold descending
  split
  · refine ⟨⟨ht, hs⟩, ⟨ht0, hs0⟩, ?_⟩
    rw [abs_toInt, abs_toInt, gcd_abs, Int.gcd_comm]
  · refine ⟨⟨hs, ht⟩, ⟨hs0, ht0⟩, ?_⟩
    rw [abs_toInt, abs_toInt, gcd_abs]

/-- The bounded loop that the greatest common divisor is taken with. -/
theorem gcd_descending (hs : Canonical s) (ht : Canonical t) (h : ¬(s.toInt = 0 ∧ t.toInt = 0)) :
    (s.gcd t).outcome = (euclid ((descending s t).2.magnitude + 1) (descending s t).1
      (descending s t).2).outcome := by
  have hnone : ¬(s.isZero && t.isZero) = true := by
    rw [Bool.and_eq_true, hs.isZero_iff, ht.isZero_iff]
    exact h
  have hcompare := abs_compare_iff s t
  unfold gcd
  rw [if_neg hnone, Attempt.outcome_bind_ok _ (Attempt.outcome_lift _),
    Attempt.outcome_bind_ok _ (Attempt.outcome_lift _)]
  unfold descending
  by_cases hlt : |s.toInt| < |t.toInt|
  · rw [if_pos hlt, if_pos (hcompare.mpr hlt)]
  · rw [if_neg hlt, if_neg (fun hc => hlt (hcompare.mp hc))]

/-- The loop ends, and what it ends with is the answer. -/
theorem gcd_outcome (hs : Canonical s) (ht : Canonical t) (h : ¬(s.toInt = 0 ∧ t.toInt = 0)) :
    ∃ g, (s.gcd t).outcome = .ok g ∧ Represents g (Int.gcd s.toInt t.toInt : Int) ∧
      ∃ n rest, EuclidLoops n (descending s t) (g, rest) := by
  obtain ⟨n, last, hn, hloop, hlast⟩ := (descending_remainders s t).loops
  obtain ⟨spare, hspare⟩ := Nat.exists_eq_add_of_le hn
  refine ⟨last.1, ?_, ⟨hlast.canonical.1, hlast.last hloop.stops⟩, n, last.2, hloop⟩
  rw [gcd_descending hs ht h, hspare, Nat.add_assoc]
  exact euclid_of_loops hloop (spare + 1)

theorem gcd_answer (hs : Canonical s) (ht : Canonical t) :
    (s.gcd t).answer =
      if s.toInt = 0 ∧ t.toInt = 0 then .error .invalidInput
      else .ok (Int.gcd s.toInt t.toInt : Int) := by
  by_cases h : s.toInt = 0 ∧ t.toInt = 0
  · rw [if_pos h]
    exact Attempt.answer_error (gcd_zero hs ht h)
  · obtain ⟨g, hok, hg, -⟩ := gcd_outcome hs ht h
    rw [if_neg h, ← hg.toInt_eq]
    exact Attempt.answer_ok hok

/-- The greatest common divisor is refused exactly for two zeros. Otherwise the loop of divisions
ends, none of them refused, with a positive common divisor that every common divisor divides; and
neither the order of the two numbers nor their signs change the answer. -/
theorem gcd_is_greatest (s t : BigInt) (hs : Canonical s) (ht : Canonical t) :
    ((s.gcd t).outcome = .error .invalidInput ↔ s.toInt = 0 ∧ t.toInt = 0) ∧
    (¬(s.toInt = 0 ∧ t.toInt = 0) →
      ∃ g, (s.gcd t).outcome = .ok g ∧ Canonical g ∧ Greatest s.toInt t.toInt g.toInt ∧
        ∃ n rest, EuclidLoops n (descending s t) (g, rest)) ∧
    (t.gcd s).answer = (s.gcd t).answer ∧
    (s.neg.val.gcd t).answer = (s.gcd t).answer ∧
    (s.gcd t.neg.val).answer = (s.gcd t).answer := by
  have hsneg := neg_represents s
  have htneg := neg_represents t
  refine ⟨⟨fun hrefused => ?_, gcd_zero hs ht⟩, fun h => ?_, ?_, ?_, ?_⟩
  · by_contra h
    obtain ⟨g, hok, -⟩ := gcd_outcome hs ht h
    rw [hok] at hrefused
    cases hrefused
  · obtain ⟨g, hok, hg, hloop⟩ := gcd_outcome hs ht h
    refine ⟨g, hok, hg.canonical, ?_, hloop⟩
    rw [hg.toInt_eq]
    exact greatest_gcd h
  · rw [gcd_answer ht hs, gcd_answer hs ht, Int.gcd_comm]
    exact if_congr and_comm rfl rfl
  · rw [gcd_answer hsneg.canonical ht, gcd_answer hs ht, hsneg.toInt_eq, Int.neg_gcd]
    exact if_congr (and_congr_left fun _ => neg_eq_zero) rfl rfl
  · rw [gcd_answer hs htneg.canonical, gcd_answer hs ht, htneg.toInt_eq, Int.gcd_neg]
    exact if_congr (and_congr_right fun _ => neg_eq_zero) rfl rfl

end Outcomes

/-- A negative number of two limbs and a number of one, by way of the remainders 18, 12 and 6; and
the same number and zero, where nothing is left to divide. -/
theorem gcd_is_greatest_six :
    let s : BigInt := ⟨[0, 3], 2, true, .secure⟩
    let small (v : Limb) : BigInt := ⟨[v, 0, 0, 0], 1, false, .secure⟩
    let nothing : BigInt := ⟨[0, 0, 0, 0], 0, false, .secure⟩
    Canonical s ∧ Canonical (small 30) ∧
      EuclidLoops 4 (descending s (small 30)) (small 6, nothing) ∧
      (s.gcd (small 30)).outcome = .ok (small 6) ∧ Greatest s.toInt (small 30).toInt 6 ∧
      ((small 30).gcd s).answer = (s.gcd (small 30)).answer ∧
      ∃ g, (s.gcd zero).outcome = .ok g ∧ Greatest s.toInt 0 g.toInt := by
  intro s small nothing
  have hs : Canonical s := ⟨by decide, rfl, by decide, by decide⟩
  have ht : Canonical (small 30) := ⟨by decide, rfl, by decide, by decide⟩
  have hloop : EuclidLoops 4 (⟨[0, 3, 0, 0], 2, false, .secure⟩, small 30) (small 6, nothing) := by
    have h1 : (euclidStep ⟨[0, 3, 0, 0], 2, false, .secure⟩ (small 30)).outcome =
        .ok (small 30, small 18) := by decide +kernel
    have h2 : (euclidStep (small 30) (small 18)).outcome = .ok (small 18, small 12) := by
      decide +kernel
    have h3 : (euclidStep (small 18) (small 12)).outcome = .ok (small 12, small 6) := by
      decide +kernel
    have h4 : (euclidStep (small 12) (small 6)).outcome = .ok (small 6, nothing) := by
      decide +kernel
    exact .stepped rfl h1 (.stepped rfl h2 (.stepped rfl h3 (.stepped rfl h4 (.stopped rfl))))
  have hstart : descending s (small 30) = (⟨[0, 3, 0, 0], 2, false, .secure⟩, small 30) := by
    decide +kernel
  have hsix : (s.gcd (small 30)).outcome = .ok (small 6) := by decide +kernel
  obtain ⟨-, hsome, hswap, -⟩ := gcd_is_greatest s (small 30) hs ht
  obtain ⟨g, hg, -, hgreatest, -⟩ := hsome (by decide)
  cases hsix.symm.trans hg
  obtain ⟨-, hnone, -⟩ := gcd_is_greatest s zero hs (empty_canonical _)
  obtain ⟨g, hok, -, hzero, -⟩ := hnone (by decide)
  exact ⟨hs, ht, hstart ▸ hloop, hsix, hgreatest, hswap, g, hok, hzero⟩

end BigInt

end CryptoPrimitives
