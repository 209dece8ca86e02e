import CryptoPrimitives.Proofs.Entropy.Suspicion

/-!
# Counters of the health tests

What the counters of a test say about the samples it has been fed, as long as it has refused none:
the length of the run that is going on, the place in the window, and how often its first sample has
been seen. They are bounded by the cutoffs and the window, so that the tests with checked additions
never find one that overflows.
-/

set_option autoImplicit false

namespace CryptoPrimitives

/-! ## Additions checked -/

def Health.next? (n : UInt32) : Option UInt32 :=
  if n.toNat + 1 < UInt32.size then some (n + 1) else none

theorem Health.next_fits {n : UInt32} (h : n.toNat + 1 < UInt32.size) :
    Health.next? n = some (n + 1) ∧ (n + 1).toNat = n.toNat + 1 := by
  refine ⟨if_pos h, ?_⟩
  rw [UInt32.toNat_add]
  exact Nat.mod_eq_of_lt h

theorem Health.bound_fits (cutoff : UInt32) : max cutoff.toNat 2 < UInt32.size := by
  have hlt := cutoff.toNat_lt
  have hsize : UInt32.size = 2 ^ 32 := rfl
  omega

def RepetitionCount.testChecked (t : RepetitionCount) (sample : UInt64) :
    Option (Verdict RepetitionCount) :=
  if t.last = some sample then do
    let run ← Health.next? t.run
    let t := { t with run }
    return (if t.cutoff ≤ t.run then .error .entropyRctFailure else .ok (), t)
  else some (.ok (), { t with last := some sample, run := 1 })

namespace AdaptiveProportion

def countChecked (t : AdaptiveProportion) : Option AdaptiveProportion := do
  let seen ← Health.next? t.seen
  let t := { t with seen }
  return if t.window ≤ t.seen then t.reset else t

def testChecked (t : AdaptiveProportion) (sample : UInt64) :
    Option (Verdict AdaptiveProportion) :=
  match t.reference with
  | none => some (.ok (), { t with reference := some sample, hits := 1, seen := 1 })
  | some reference =>
    if sample = reference then do
      let hits ← Health.next? t.hits
      let t := { t with hits }
      if t.cutoff ≤ t.hits then return (.error .entropyAptFailure, t)
      return (.ok (), ← t.countChecked)
    else do return (.ok (), ← t.countChecked)

end AdaptiveProportion

namespace HealthTests

def feedChecked (t : HealthTests) (sample : UInt64) : Option (Verdict HealthTests) := do
  match ← t.rct.testChecked sample with
  | (.error e, rct) => return (.error e, { t with rct })
  | (.ok (), rct) =>
    let (verdict, apt) ← t.apt.testChecked sample
    return (verdict, ⟨rct, apt⟩)

end HealthTests

open Health

/-! ## What the counters hold -/

def Health.Answers {τ : Type} (fault : Option Fault) (left : τ → Prop) (v : Verdict τ) : Prop :=
  match fault with
  | some e => v.1 = .error e
  | none => v.1 = .ok () ∧ left v.2

structure RepetitionCount.Counts (cutoff : UInt32) (h : List UInt64) (t : RepetitionCount) :
    Prop where
  cutoff_eq : t.cutoff = cutoff
  last : t.last = h.getLast?
  run : t.run.toNat = endRun h
  quiet : endRun h < max cutoff.toNat 2

theorem RepetitionCount.counts_create (cutoff : UInt32) : Counts cutoff [] (create cutoff) where
  cutoff_eq := rfl
  last := rfl
  run := rfl
  quiet := by
    change 0 < _
    omega

theorem RepetitionCount.Counts.test {cutoff : UInt32} {h : List UInt64} {t : RepetitionCount}
    (ht : Counts cutoff h t) (x : UInt64) :
    t.testChecked x = some (t.test x) ∧
      Answers (if Repeated cutoff (h ++ [x]) then some .entropyRctFailure else none)
        (Counts cutoff (h ++ [x])) (t.test x) := by
  have hbound := bound_fits cutoff
  have hquiet := ht.quiet
  have hrun := ht.run
  obtain ⟨hnext, hvalue⟩ := next_fits (n := t.run) (by omega)
  have hend := endRun_snoc h x
  have hnow : (h ++ [x]).getLast? = some x := List.getLast?_concat
  unfold testChecked RepetitionCount.test
  by_cases hlast : t.last = some x
  · rw [if_pos hlast, if_pos hlast, hnext]
    refine ⟨rfl, ?_⟩
    have hsame : h.getLast? = some x := ht.last ▸ hlast
    rw [if_pos hsame] at hend
    have hreached : Repeated cutoff (h ++ [x]) ↔ t.cutoff ≤ t.run + 1 := by
      rw [repeated_snoc, UInt32.le_iff_toNat_le, ht.cutoff_eq, hvalue, hrun]
      exact and_iff_right hsame
    by_cases hfails : Repeated cutoff (h ++ [x])
    · rw [if_pos hfails]
      exact if_pos (hreached.mp hfails)
    · rw [if_neg hfails]
      refine ⟨if_neg (mt hreached.mpr hfails), ht.cutoff_eq, hlast.trans hnow.symm, ?_,
        Nat.lt_of_not_le hfails⟩
      rw [hend, ← hrun]
      exact hvalue
  · rw [if_neg hlast, if_neg hlast]
    refine ⟨rfl, ?_⟩
    have hother : h.getLast? ≠ some x := ht.last ▸ hlast
    have hfine : ¬ Repeated cutoff (h ++ [x]) := fun hfails =>
      hother ((repeated_snoc cutoff).mp hfails).1
    rw [if_neg hother] at hend
    rw [if_neg hfine]
    refine ⟨rfl, ht.cutoff_eq, hnow.symm, ?_, Nat.lt_of_not_le hfine⟩
    rw [hend]
    rfl

namespace AdaptiveProportion

inductive Counts (window cutoff : UInt32) (h : List UInt64) : AdaptiveProportion → Prop
  | closed (hwindow : max window.toNat 2 ∣ h.length) : Counts window cutoff h (create window cutoff)
  | opened {first : UInt64} {hits seen : UInt32} (hwindow : ¬ max window.toNat 2 ∣ h.length)
      (hfirst : (lastWindow (max window.toNat 2) h).head? = some first)
      (hhits : hits.toNat = (lastWindow (max window.toNat 2) h).count first)
      (hseen : seen.toNat = h.length % max window.toNat 2)
      (hquiet : hits.toNat < max cutoff.toNat 2) :
      Counts window cutoff h ⟨window, cutoff, some first, hits, seen⟩

theorem counts_create (window cutoff : UInt32) : Counts window cutoff [] (create window cutoff) :=
  .closed (Nat.dvd_zero _)

/-- A sample counted in closes its window, or the next one falls into it too. -/
theorem count_counts {window cutoff : UInt32} {h : List UInt64} {x first : UInt64}
    {hits seen : UInt32} (hwindow : ¬ max window.toNat 2 ∣ h.length)
    (hfirst : (lastWindow (max window.toNat 2) h).head? = some first)
    (hhits : hits.toNat = (lastWindow (max window.toNat 2) (h ++ [x])).count first)
    (hseen : seen.toNat = h.length % max window.toNat 2)
    (hquiet : hits.toNat < max cutoff.toNat 2) :
    countChecked ⟨window, cutoff, some first, hits, seen⟩ =
        some (count ⟨window, cutoff, some first, hits, seen⟩) ∧
      Counts window cutoff (h ++ [x]) (count ⟨window, cutoff, some first, hits, seen⟩) := by
  have hbound := bound_fits window
  have hlt : seen.toNat < max window.toNat 2 := hseen ▸ Nat.mod_lt _ (by omega)
  have hpos : 0 < seen.toNat :=
    hseen ▸ Nat.pos_of_ne_zero fun h0 => hwindow (Nat.dvd_of_mod_eq_zero h0)
  obtain ⟨hnext, hvalue⟩ := next_fits (n := seen) (by omega)
  have hcloses : window ≤ seen + 1 ↔ seen.toNat + 1 = max window.toNat 2 := by
    rw [UInt32.le_iff_toNat_le, hvalue]
    omega
  have hlength : (h ++ [x]).length % max window.toNat 2 =
      (seen.toNat + 1) % max window.toNat 2 := by
    rw [List.length_append, List.length_singleton, hseen, Nat.mod_add_mod]
  refine ⟨by simp only [countChecked, hnext, Option.bind_eq_bind, Option.bind_some]; rfl, ?_⟩
  unfold count
  by_cases hlast : seen.toNat + 1 = max window.toNat 2
  · rw [if_pos (hcloses.mpr hlast)]
    rw [hlast, Nat.mod_self] at hlength
    exact .closed (Nat.dvd_of_mod_eq_zero hlength)
  · rw [if_neg (mt hcloses.mp hlast)]
    have hsmall : (seen.toNat + 1) % max window.toNat 2 = seen.toNat + 1 :=
      Nat.mod_eq_of_lt (by omega)
    rw [hsmall, ← hvalue] at hlength
    refine .opened (fun hdvd => ?_) ?_ hhits hlength.symm hquiet
    · have hzero := Nat.mod_eq_zero_of_dvd hdvd
      omega
    · rw [lastWindow_joined hwindow, List.head?_append, hfirst]
      rfl

section

variable {window cutoff : UInt32} {h : List UInt64} {x first : UInt64} {hits seen : UInt32}
  (hwindow : ¬ max window.toNat 2 ∣ h.length)
  (hfirst : (lastWindow (max window.toNat 2) h).head? = some first)
  (hhits : hits.toNat = (lastWindow (max window.toNat 2) h).count first)
  (hseen : seen.toNat = h.length % max window.toNat 2)
  (hquiet : hits.toNat < max cutoff.toNat 2)

include hwindow hfirst hhits hseen hquiet

/-- The first sample of the window comes again. -/
theorem test_first :
    testChecked ⟨window, cutoff, some first, hits, seen⟩ first =
        some (test ⟨window, cutoff, some first, hits, seen⟩ first) ∧
      Answers (if Favoured window cutoff (h ++ [first]) then some .entropyAptFailure else none)
        (Counts window cutoff (h ++ [first]))
        (test ⟨window, cutoff, some first, hits, seen⟩ first) := by
  have hbound := bound_fits cutoff
  obtain ⟨hnext, hvalue⟩ := next_fits (n := hits) (by omega)
  have hreached : Favoured window cutoff (h ++ [first]) ↔ cutoff ≤ hits + 1 := by
    rw [favoured_joined hwindow, UInt32.le_iff_toNat_le, hvalue, hhits]
    exact and_iff_right hfirst
  unfold testChecked AdaptiveProportion.test
  simp only [if_true, hnext, Option.bind_eq_bind, Option.bind_some]
  by_cases hfails : Favoured window cutoff (h ++ [first])
  · rw [if_pos hfails, if_pos (hreached.mp hfails), if_pos (hreached.mp hfails)]
    exact ⟨rfl, rfl⟩
  · rw [if_neg hfails, if_neg (mt hreached.mpr hfails), if_neg (mt hreached.mpr hfails)]
    have hmore : (hits + 1).toNat =
        (lastWindow (max window.toNat 2) (h ++ [first])).count first := by
      rw [hvalue, hhits, lastWindow_joined hwindow, List.count_append, List.count_singleton_self]
    have hbelow : (hits + 1).toNat < max cutoff.toNat 2 := by
      rw [hreached, UInt32.le_iff_toNat_le] at hfails
      omega
    obtain ⟨hchecked, hcounts⟩ := count_counts hwindow hfirst hmore hseen hbelow
    exact ⟨by rw [hchecked]; rfl, rfl, hcounts⟩

theorem test_other (hother : x ≠ first) :
    testChecked ⟨window, cutoff, some first, hits, seen⟩ x =
        some (test ⟨window, cutoff, some first, hits, seen⟩ x) ∧
      Answers (if Favoured window cutoff (h ++ [x]) then some .entropyAptFailure else none)
        (Counts window cutoff (h ++ [x])) (test ⟨window, cutoff, some first, hits, seen⟩ x) := by
  have hfine : ¬ Favoured window cutoff (h ++ [x]) := by
    rw [favoured_joined hwindow, hfirst]
    rintro ⟨hsame, -⟩
    exact hother (Option.some.inj hsame).symm
  have hkept : hits.toNat = (lastWindow (max window.toNat 2) (h ++ [x])).count first := by
    have habsent : [x].count first = 0 :=
      List.count_eq_zero_of_not_mem (by simpa using Ne.symm hother)
    rw [hhits, lastWindow_joined hwindow, List.count_append, habsent]
    rfl
  obtain ⟨hchecked, hcounts⟩ := count_counts hwindow hfirst hkept hseen hquiet
  unfold testChecked AdaptiveProportion.test
  simp only [if_neg hother, if_neg hfine]
  exact ⟨by rw [hchecked]; rfl, rfl, hcounts⟩

end

theorem Counts.test {window cutoff : UInt32} {h : List UInt64} {t : AdaptiveProportion}
    (ht : Counts window cutoff h t) (x : UInt64) :
    t.testChecked x = some (t.test x) ∧
      Answers (if Favoured window cutoff (h ++ [x]) then some .entropyAptFailure else none)
        (Counts window cutoff (h ++ [x])) (t.test x) := by
  cases ht with
  | closed hwindow =>
    refine ⟨rfl, ?_⟩
    rw [if_neg (not_favoured_opened hwindow)]
    have hmod := Nat.mod_eq_zero_of_dvd hwindow
    have hlength : (h ++ [x]).length % max window.toNat 2 = 1 := by
      rw [List.length_append, List.length_singleton, Nat.add_mod, hmod, Nat.zero_add, Nat.mod_mod]
      exact Nat.mod_eq_of_lt (by omega)
    refine ⟨rfl, .opened (fun hdvd => ?_) ?_ ?_ hlength.symm ?_⟩
    · have hzero := Nat.mod_eq_zero_of_dvd hdvd
      omega
    · rw [lastWindow_opened hwindow]
      rfl
    · rw [lastWindow_opened hwindow, List.count_singleton_self]
      rfl
    · change 1 < _
      omega
  | @opened first hits seen hwindow hfirst hhits hseen hquiet =>
    by_cases hsame : x = first
    · subst hsame
      exact test_first hwindow hfirst hhits hseen hquiet
    · exact test_other hwindow hfirst hhits hseen hquiet hsame

end AdaptiveProportion

namespace HealthTests

structure Counts (rctCutoff aptWindow aptCutoff : UInt32) (h : List UInt64) (t : HealthTests) :
    Prop where
  rct : t.rct.Counts rctCutoff h
  apt : t.apt.Counts aptWindow aptCutoff h

section

variable {rctCutoff aptWindow aptCutoff : UInt32} {h : List UInt64} {t : HealthTests}

theorem counts_create : Counts rctCutoff aptWindow aptCutoff []
    (create rctCutoff aptWindow aptCutoff) :=
  ⟨RepetitionCount.counts_create rctCutoff, AdaptiveProportion.counts_create aptWindow aptCutoff⟩

/-- The repetition count is asked first, and the other test only if it has no objection. -/
theorem Counts.feed (ht : Counts rctCutoff aptWindow aptCutoff h t) (x : UInt64) :
    t.feedChecked x = some (t.feed x) ∧
      Answers (alarm rctCutoff aptWindow aptCutoff (h ++ [x]))
        (Counts rctCutoff aptWindow aptCutoff (h ++ [x])) (t.feed x) := by
  obtain ⟨hrct, hrepeated⟩ := ht.rct.test x
  obtain ⟨hapt, hfavoured⟩ := ht.apt.test x
  unfold feedChecked HealthTests.feed alarm
  rw [hrct]
  rcases hrun : t.rct.test x with ⟨verdict, rct⟩
  rw [hrun] at hrepeated
  by_cases hfails : Repeated rctCutoff (h ++ [x])
  · rw [if_pos hfails] at hrepeated ⊢
    obtain rfl : verdict = .error .entropyRctFailure := hrepeated
    exact ⟨rfl, rfl⟩
  · rw [if_neg hfails] at hrepeated ⊢
    obtain ⟨rfl, hcounts⟩ : verdict = .ok () ∧ rct.Counts rctCutoff (h ++ [x]) := hrepeated
    refine ⟨by simp only [Option.bind_eq_bind, Option.bind_some, hapt]; rfl, ?_⟩
    by_cases hbiased : Favoured aptWindow aptCutoff (h ++ [x])
    · rw [if_pos hbiased] at hfavoured ⊢
      exact hfavoured
    · rw [if_neg hbiased] at hfavoured ⊢
      exact ⟨hfavoured.1, hcounts, hfavoured.2⟩

end

end HealthTests

end CryptoPrimitives
