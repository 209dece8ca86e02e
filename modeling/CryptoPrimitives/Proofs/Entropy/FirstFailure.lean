import CryptoPrimitives.Proofs.Entropy.Counters

/-!
# The first failure of the health tests

Fed from the start, the tests fail first at the first sample that ends a suspicious history, and it
does not matter in which calls the samples come in.
-/

set_option autoImplicit false

namespace CryptoPrimitives

namespace HealthTests

/-! ## Samples and calls -/

def feedAll (t : HealthTests) : List UInt64 → Verdict HealthTests
  | [] => (.ok (), t)
  | x :: xs =>
    match t.feed x with
    | (.error e, t) => (.error e, t)
    | (.ok (), t) => feedAll t xs

def feedAllChecked (t : HealthTests) : List UInt64 → Option (Verdict HealthTests)
  | [] => some (.ok (), t)
  | x :: xs => do
    match ← t.feedChecked x with
    | (.error e, t) => return (.error e, t)
    | (.ok (), t) => feedAllChecked t xs

theorem feedAll_append (t : HealthTests) (xs ys : List UInt64) :
    t.feedAll (xs ++ ys) =
      match t.feedAll xs with
      | (.error e, t) => (.error e, t)
      | (.ok (), t) => t.feedAll ys := by
  induction xs generalizing t with
  | nil => rfl
  | cons x xs ih =>
    rw [List.cons_append, feedAll, feedAll]
    rcases t.feed x with ⟨_ | _, t'⟩
    · rfl
    · exact ih t'

theorem feedBytes_eq (t : HealthTests) (bs : Bytes) :
    t.feedBytes bs = t.feedAll (bs.map UInt8.toUInt64) := by
  induction bs generalizing t with
  | nil => rfl
  | cons b bs ih =>
    rw [feedBytes, List.map_cons, feedAll]
    rcases t.feed b.toUInt64 with ⟨_ | _, t'⟩
    · rfl
    · exact ih t'

end HealthTests

inductive HealthCall
  | sample (x : UInt64)
  | bytes (data : Bytes)
  deriving DecidableEq, Repr

namespace HealthCall

def samples : HealthCall → List UInt64
  | sample x => [x]
  | bytes data => data.map UInt8.toUInt64

def verdict (t : HealthTests) : HealthCall → Verdict HealthTests
  | sample x => t.feed x
  | bytes data => t.feedBytes data

theorem verdict_eq (t : HealthTests) (call : HealthCall) :
    call.verdict t = t.feedAll call.samples := by
  cases call with
  | sample x =>
    rw [verdict, samples, HealthTests.feedAll]
    rcases t.feed x with ⟨_ | _, t'⟩ <;> rfl
  | bytes data => exact t.feedBytes_eq data

end HealthCall

namespace HealthTests

def callAll (t : HealthTests) : List HealthCall → Verdict HealthTests
  | [] => (.ok (), t)
  | call :: calls =>
    match call.verdict t with
    | (.error e, t) => (.error e, t)
    | (.ok (), t) => callAll t calls

/-- Nothing but the samples matters. -/
theorem callAll_eq (t : HealthTests) (calls : List HealthCall) :
    t.callAll calls = t.feedAll (calls.flatMap HealthCall.samples) := by
  induction calls generalizing t with
  | nil => rfl
  | cons call calls ih =>
    rw [List.flatMap_cons, feedAll_append, callAll, call.verdict_eq]
    rcases t.feedAll call.samples with ⟨_ | _, t'⟩
    · rfl
    · exact ih t'

inductive Used (rctCutoff aptWindow aptCutoff : UInt32) : HealthTests → Prop
  | fresh : Used rctCutoff aptWindow aptCutoff (create rctCutoff aptWindow aptCutoff)
  | called {t : HealthTests} (ht : Used rctCutoff aptWindow aptCutoff t) (call : HealthCall) :
      Used rctCutoff aptWindow aptCutoff (call.verdict t).2
  | reset {t : HealthTests} (ht : Used rctCutoff aptWindow aptCutoff t) :
      Used rctCutoff aptWindow aptCutoff t.reset

inductive Cleared (rctCutoff aptWindow aptCutoff : UInt32) : HealthTests → Prop
  | fresh : Cleared rctCutoff aptWindow aptCutoff (create rctCutoff aptWindow aptCutoff)
  | reset {t : HealthTests} (ht : Used rctCutoff aptWindow aptCutoff t) :
      Cleared rctCutoff aptWindow aptCutoff t.reset

end HealthTests

/-! ## Parameters -/

theorem RepetitionCount.test_cutoff (t : RepetitionCount) (x : UInt64) :
    (t.test x).2.cutoff = t.cutoff := by
  unfold RepetitionCount.test
  split <;> rfl

theorem AdaptiveProportion.count_parameters (t : AdaptiveProportion) :
    t.count.window = t.window ∧ t.count.cutoff = t.cutoff := by
  unfold count
  dsimp only
  split <;> exact ⟨rfl, rfl⟩

theorem AdaptiveProportion.test_parameters (t : AdaptiveProportion) (x : UInt64) :
    (t.test x).2.window = t.window ∧ (t.test x).2.cutoff = t.cutoff := by
  unfold AdaptiveProportion.test
  split
  · exact ⟨rfl, rfl⟩
  · split
    · dsimp only
      split
      · exact ⟨rfl, rfl⟩
      · exact count_parameters { t with hits := t.hits + 1 }
    · exact t.count_parameters

namespace HealthTests

open Health

section

variable {rctCutoff aptWindow aptCutoff : UInt32} {h : List UInt64} {t : HealthTests}

def parameters (t : HealthTests) : UInt32 × UInt32 × UInt32 :=
  (t.rct.cutoff, t.apt.window, t.apt.cutoff)

theorem feed_parameters (t : HealthTests) (x : UInt64) :
    (t.feed x).2.parameters = t.parameters := by
  have hrct := t.rct.test_cutoff x
  obtain ⟨hwindow, hcutoff⟩ := t.apt.test_parameters x
  unfold HealthTests.feed
  rcases hrun : t.rct.test x with ⟨_ | _, rct⟩
  · rw [hrun] at hrct
    exact congrArg (·, t.apt.window, t.apt.cutoff) hrct
  · rw [hrun] at hrct
    exact Prod.ext hrct (Prod.ext hwindow hcutoff)

theorem feedAll_parameters (t : HealthTests) (xs : List UInt64) :
    (t.feedAll xs).2.parameters = t.parameters := by
  induction xs generalizing t with
  | nil => rfl
  | cons x xs ih =>
    have hfirst := t.feed_parameters x
    rw [feedAll]
    rcases hrun : t.feed x with ⟨_ | _, t'⟩
    · rw [hrun] at hfirst
      exact hfirst
    · rw [hrun] at hfirst
      exact (ih t').trans hfirst

theorem Used.parameters_eq (ht : Used rctCutoff aptWindow aptCutoff t) :
    t.parameters = (rctCutoff, aptWindow, aptCutoff) := by
  induction ht with
  | fresh => rfl
  | @called t ht call ih =>
    rw [call.verdict_eq, feedAll_parameters, ih]
  | reset ht ih => exact ih

theorem Cleared.eq_create (ht : Cleared rctCutoff aptWindow aptCutoff t) :
    t = create rctCutoff aptWindow aptCutoff := by
  cases ht with
  | fresh => rfl
  | reset ht =>
    cases ht.parameters_eq
    rfl

/-! ## Sequences of samples -/

theorem Counts.checked (ht : Counts rctCutoff aptWindow aptCutoff h t) (xs : List UInt64) :
    t.feedAllChecked xs = some (t.feedAll xs) := by
  induction xs generalizing h t with
  | nil => rfl
  | cons x xs ih =>
    obtain ⟨hchecked, hanswer⟩ := ht.feed x
    rw [feedAllChecked, hchecked, feedAll]
    rcases hrun : t.feed x with ⟨_ | _, t'⟩
    · rfl
    · rw [hrun] at hanswer
      cases halarm : alarm rctCutoff aptWindow aptCutoff (h ++ [x]) with
      | some e =>
        rw [halarm] at hanswer
        cases hanswer
      | none =>
        rw [halarm] at hanswer
        exact ih hanswer.2

theorem Counts.accepted (ht : Counts rctCutoff aptWindow aptCutoff h t) (xs : List UInt64)
    (hquiet : ∀ i < xs.length, alarm rctCutoff aptWindow aptCutoff (h ++ xs.take (i + 1)) = none) :
    (t.feedAll xs).1 = .ok () ∧
      Counts rctCutoff aptWindow aptCutoff (h ++ xs) (t.feedAll xs).2 := by
  induction xs generalizing h t with
  | nil =>
    rw [List.append_nil]
    exact ⟨rfl, ht⟩
  | cons x xs ih =>
    have hanswer := (ht.feed x).2
    rw [show alarm rctCutoff aptWindow aptCutoff (h ++ [x]) = none from
      hquiet 0 (Nat.succ_pos _)] at hanswer
    rcases hrun : t.feed x with ⟨verdict, t'⟩
    rw [hrun] at hanswer
    obtain ⟨rfl, hcounts⟩ : verdict = .ok () ∧ Counts _ _ _ (h ++ [x]) t' := hanswer
    have hrest := ih hcounts fun i hi => by
      have hnext := hquiet (i + 1) (Nat.succ_lt_succ hi)
      rw [List.take_succ_cons] at hnext
      rw [List.append_assoc]
      exact hnext
    rw [List.append_assoc] at hrest
    rw [feedAll, hrun]
    exact hrest

/-- What raises an alarm is where the tests stop, whatever comes after it. -/
theorem Counts.refused (ht : Counts rctCutoff aptWindow aptCutoff h t) {xs : List UInt64}
    {x : UInt64} {e : Fault}
    (hquiet : ∀ i < xs.length, alarm rctCutoff aptWindow aptCutoff (h ++ xs.take (i + 1)) = none)
    (halarm : alarm rctCutoff aptWindow aptCutoff (h ++ xs ++ [x]) = some e) (ys : List UInt64) :
    (t.feedAll (xs ++ x :: ys)).1 = .error e ∧
      t.feedAll (xs ++ x :: ys) = t.feedAll (xs ++ [x]) := by
  obtain ⟨haccepted, hcounts⟩ := ht.accepted xs hquiet
  rw [feedAll_append, feedAll_append]
  rcases hbefore : t.feedAll xs with ⟨verdict, t'⟩
  rw [hbefore] at haccepted hcounts
  obtain rfl : verdict = .ok () := haccepted
  have hanswer := (hcounts.feed x).2
  rw [halarm] at hanswer
  simp only [feedAll]
  rcases hrun : t'.feed x with ⟨verdict, t''⟩
  rw [hrun] at hanswer
  obtain rfl : verdict = .error e := hanswer
  exact ⟨rfl, rfl⟩

end

/-- However the samples come in, the tests fail first at the first sample that raises an alarm, with
that alarm and without regard to what follows, or accept them all. No addition overflows. -/
theorem first_failure_is_first_alarm (rctCutoff aptWindow aptCutoff : UInt32) (t : HealthTests)
    (ht : Cleared rctCutoff aptWindow aptCutoff t) (calls : List HealthCall) :
    let samples := calls.flatMap HealthCall.samples
    let alarmAt := fun i => alarm rctCutoff aptWindow aptCutoff (samples.take (i + 1))
    (t.callAll calls = t.feedAll samples ∧
      t.feedAllChecked samples = some (t.feedAll samples)) ∧
    (∀ i e, i < samples.length → alarmAt i = some e → (∀ j < i, alarmAt j = none) →
      (t.feedAll (samples.take i)).1 = .ok () ∧ (t.feedAll samples).1 = .error e ∧
        t.feedAll samples = t.feedAll (samples.take (i + 1))) ∧
    ((∀ i < samples.length, alarmAt i = none) → (t.feedAll samples).1 = .ok ()) := by
  intro samples alarmAt
  have hstart : Counts rctCutoff aptWindow aptCutoff [] t := ht.eq_create ▸ counts_create
  refine ⟨⟨t.callAll_eq calls, hstart.checked samples⟩, fun i e hi halarm hbefore => ?_,
    fun hquiet => (hstart.accepted samples hquiet).1⟩
  have hquiet : ∀ j < (samples.take i).length,
      alarm rctCutoff aptWindow aptCutoff ([] ++ (samples.take i).take (j + 1)) = none := by
    intro j hj
    have hji : j < i := Nat.lt_of_lt_of_le hj (List.length_take_le i samples)
    rw [List.nil_append, List.take_take, Nat.min_eq_left hji]
    exact hbefore j hji
  have hupto : samples.take i ++ [samples[i]] = samples.take (i + 1) :=
    (List.take_succ_eq_append_getElem hi).symm
  have hwhole : samples.take i ++ samples[i] :: samples.drop (i + 1) = samples := by
    rw [← List.drop_eq_getElem_cons hi, List.take_append_drop]
  change alarm _ _ _ (samples.take (i + 1)) = some e at halarm
  rw [← hupto] at halarm
  have hfails := hstart.refused hquiet halarm (samples.drop (i + 1))
  rw [hwhole, hupto] at hfails
  exact ⟨(hstart.accepted _ hquiet).1, hfails⟩

/-- Tests that have failed are reset. In the second window of four samples, 9 comes a third time,
within a call that goes on. -/
theorem first_failure_is_first_alarm_window :
    ∃ t : HealthTests, Cleared 5 4 3 t ∧
      (t.callAll [.sample 1, .bytes [2, 1, 3], .sample 9, .bytes [9, 1, 9, 9, 9]]).1 =
        .error .entropyAptFailure := by
  have ht : Cleared 5 4 3 ((HealthCall.bytes [7, 7, 7, 7, 7]).verdict (create 5 4 3)).2.reset :=
    .reset (.called .fresh _)
  obtain ⟨⟨hcalls, -⟩, hfails, -⟩ := first_failure_is_first_alarm 5 4 3 _ ht
    [.sample 1, .bytes [2, 1, 3], .sample 9, .bytes [9, 1, 9, 9, 9]]
  obtain ⟨-, herror, -⟩ := hfails 7 .entropyAptFailure (by decide) (by decide +kernel)
    (by decide +kernel)
  exact ⟨_, ht, by rw [hcalls]; exact herror⟩

end HealthTests

end CryptoPrimitives
