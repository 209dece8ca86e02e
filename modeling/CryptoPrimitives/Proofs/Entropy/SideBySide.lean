import CryptoPrimitives.Entropy.Health

/-!
# Health tests that go on after a failure

A source that is tried again goes on with the same tests. The repetition count then stands where it
would stand alone. The adaptive proportion test stands where it would if the samples that the other
one refused had never come, and so they are missing from its window.
-/

set_option autoImplicit false

namespace CryptoPrimitives

namespace Health

def goOn {τ : Type} (test : τ → UInt64 → Verdict τ) :
    τ → List UInt64 → List (Except Fault Unit) × τ
  | t, [] => ([], t)
  | t, x :: xs =>
    let rest := goOn test (test t x).2 xs
    ((test t x).1 :: rest.1, rest.2)

def passed : List (Except Fault Unit) → List UInt64 → List UInt64
  | .ok () :: verdicts, x :: xs => x :: passed verdicts xs
  | .error _ :: verdicts, _ :: xs => passed verdicts xs
  | _, _ => []

def weave : List (Except Fault Unit) → List (Except Fault Unit) → List (Except Fault Unit)
  | .error e :: verdicts, later => .error e :: weave verdicts later
  | .ok () :: verdicts, verdict :: later => verdict :: weave verdicts later
  | _, _ => []

theorem passed_all {verdicts : List (Except Fault Unit)} {xs : List UInt64}
    (hlength : verdicts.length = xs.length) (hok : ∀ v ∈ verdicts, v = .ok ()) :
    passed verdicts xs = xs := by
  induction xs generalizing verdicts with
  | nil =>
    rw [List.length_eq_zero_iff.mp hlength]
    rfl
  | cons x xs ih =>
    obtain ⟨verdict, verdicts, rfl⟩ := List.exists_cons_of_length_eq_add_one hlength
    obtain rfl := hok verdict List.mem_cons_self
    rw [passed, ih (Nat.succ.inj hlength) fun v hv => hok v (List.mem_cons_of_mem _ hv)]

theorem length_goOn {τ : Type} (test : τ → UInt64 → Verdict τ) (t : τ) (xs : List UInt64) :
    (goOn test t xs).1.length = xs.length := by
  induction xs generalizing t with
  | nil => rfl
  | cons x xs ih => exact congrArg (· + 1) (ih _)

end Health

namespace HealthTests

open Health

theorem feed_refused {t : HealthTests} {x : UInt64} {e : Fault}
    (h : (t.rct.test x).1 = .error e) :
    t.feed x = (.error e, ⟨(t.rct.test x).2, t.apt⟩) := by
  unfold HealthTests.feed
  rcases hrun : t.rct.test x with ⟨verdict, rct⟩
  rw [hrun] at h
  obtain rfl : verdict = .error e := h
  rfl

theorem feed_passed {t : HealthTests} {x : UInt64} (h : (t.rct.test x).1 = .ok ()) :
    t.feed x = ((t.apt.test x).1, ⟨(t.rct.test x).2, (t.apt.test x).2⟩) := by
  unfold HealthTests.feed
  rcases hrun : t.rct.test x with ⟨verdict, rct⟩
  rw [hrun] at h
  obtain rfl : verdict = .ok () := h
  rfl

theorem goOn_feed (t : HealthTests) (xs : List UInt64) :
    goOn HealthTests.feed t xs =
      let counted := goOn RepetitionCount.test t.rct xs
      let proportioned := goOn AdaptiveProportion.test t.apt (passed counted.1 xs)
      (weave counted.1 proportioned.1, ⟨counted.2, proportioned.2⟩) := by
  induction xs generalizing t with
  | nil => rfl
  | cons x xs ih =>
    cases hverdict : (t.rct.test x).1 with
    | error e => simp only [goOn, feed_refused hverdict, ih, hverdict, passed, weave]
    | ok u => simp only [goOn, feed_passed hverdict, ih, hverdict, passed, weave]

/-- The one test by itself over all samples, the other by itself over those that the first lets
pass, and their verdicts together: that is what the two do side by side. If none is refused, both
have seen all. -/
theorem proportion_sees_what_passes (t : HealthTests) (xs : List UInt64) :
    let counted := goOn RepetitionCount.test t.rct xs
    let proportioned := goOn AdaptiveProportion.test t.apt (passed counted.1 xs)
    goOn HealthTests.feed t xs =
        (weave counted.1 proportioned.1, ⟨counted.2, proportioned.2⟩) ∧
      ((∀ verdict ∈ counted.1, verdict = .ok ()) →
        (goOn HealthTests.feed t xs).2 =
          ⟨counted.2, (goOn AdaptiveProportion.test t.apt xs).2⟩) := by
  intro counted proportioned
  have hboth := goOn_feed t xs
  refine ⟨hboth, fun hok => ?_⟩
  have hseen : passed counted.1 xs = xs := passed_all (length_goOn _ _ _) hok
  rw [hboth]
  change HealthTests.mk _ (goOn AdaptiveProportion.test t.apt (passed counted.1 xs)).2 = _
  rw [hseen]

/-- The second 5 is refused as a repetition, and the other test does not count it: the last 5 is the
third one of its window and passes all the same. -/
theorem proportion_misses_refused :
    ¬ ∀ (rctCutoff aptWindow aptCutoff : UInt32) (xs : List UInt64),
      (goOn HealthTests.feed (create rctCutoff aptWindow aptCutoff) xs).2 =
        ⟨(goOn RepetitionCount.test (.create rctCutoff) xs).2,
          (goOn AdaptiveProportion.test (.create aptWindow aptCutoff) xs).2⟩ := by
  intro hboth
  exact absurd (hboth 2 10 3 [5, 5, 6, 5]) (by decide)

end HealthTests

end CryptoPrimitives
