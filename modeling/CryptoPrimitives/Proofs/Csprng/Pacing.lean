import CryptoPrimitives.Proofs.Csprng.Observed
import CryptoPrimitives.Proofs.Csprng.Passes

/-!
# How often a counting policy reseeds

A reseed sets the count back before the step that it was asked for is served, so that this step is
never counted: a policy that counts to `n` asks after `n` steps from the start and after `n + 1`
steps from each reseed. `Paced` is the invariant, with `owed` for the step that is still to come.
-/

set_option autoImplicit false

namespace CryptoPrimitives

namespace Beat

def since : Nat → List Beat → Nat
  | steps, [] => steps
  | _, .reseeded :: beats => since 0 beats
  | steps, .served :: beats => since (steps + 1) beats
  | steps, .asked :: beats => since steps beats

def lag (beats : List Beat) : Nat := if .reseeded ∈ beats then 1 else 0

theorem since_append (steps : Nat) (beats later : List Beat) :
    since steps (beats ++ later) = since (since steps beats) later := by
  induction beats generalizing steps with
  | nil => rfl
  | cons beat beats ih => cases beat <;> exact ih _

theorem lag_append (beats : List Beat) {beat : Beat} (h : beat ≠ .reseeded) :
    lag (beats ++ [beat]) = lag beats := by
  simp [lag, h.symm]

theorem lag_reseeded (beats : List Beat) : lag (beats ++ [.reseeded]) = 1 := by
  simp [lag]

/-- So many steps come at most before the first reseed, and one more after each; and when a reseed
is asked for, they have just been served. -/
def Regular (interval : Nat) (beats : List Beat) : Prop :=
  ∀ before after, beats = before ++ after →
    since 0 before ≤ interval + lag before ∧
      (after.head? = some .asked → since 0 before = interval + lag before)

theorem Regular.snoc {interval : Nat} {beats : List Beat} {beat : Beat} (h : Regular interval beats)
    (hbound : since 0 (beats ++ [beat]) ≤ interval + lag (beats ++ [beat]))
    (hasked : beat = .asked → since 0 beats = interval + lag beats) :
    Regular interval (beats ++ [beat]) := by
  intro before after hsplit
  rcases List.eq_nil_or_concat after with rfl | ⟨after, last, rfl⟩
  · rw [List.append_nil] at hsplit
    rw [← hsplit]
    exact ⟨hbound, fun hnone => by cases hnone⟩
  · rw [List.concat_eq_append, ← List.append_assoc] at hsplit
    obtain ⟨hbeats, hlast⟩ := List.append_inj' hsplit rfl
    obtain ⟨hle, hnext⟩ := h before after hbeats
    refine ⟨hle, fun hhead => ?_⟩
    cases after with
    | nil =>
      rw [List.append_nil] at hbeats
      cases hlast
      cases hhead
      rw [← hbeats]
      exact hasked rfl
    | cons first rest => exact hnext hhead

structure Paced (every : UInt64) (owed : Nat) (beats : List Beat) (p : Policy.Counter) : Prop where
  interval : p.every = max every 1
  within : p.steps.toNat ≤ p.every.toNat
  count : since 0 beats + owed = p.steps.toNat + lag beats
  regular : Regular (max every 1).toNat beats

namespace Paced

variable {every : UInt64} {owed : Nat} {beats : List Beat} {p p' : Policy.Counter}

theorem start (every : UInt64) : Paced every 0 [] (Policy.Counter.create every) where
  interval := rfl
  within := Nat.zero_le _
  count := rfl
  regular := by
    intro before after hsplit
    obtain ⟨rfl, rfl⟩ := List.append_eq_nil_iff.mp hsplit.symm
    exact ⟨Nat.zero_le _, fun hnone => by cases hnone⟩

theorem asked (h : Paced every 0 beats p) (hdue : Policy.due p = (true, p')) :
    Paced every 0 (beats ++ [.asked]) p' := by
  have hlag : lag (beats ++ [.asked]) = lag beats := lag_append beats (by decide)
  have hsince : since 0 (beats ++ [.asked]) = since 0 beats := since_append 0 beats [.asked]
  have hwithin := h.within
  have hcount := h.count
  simp only [Policy.due] at hdue
  split at hdue
  · rename_i hspent
    cases hdue
    have hspent : p.every.toNat ≤ p.steps.toNat := UInt64.le_iff_toNat_le.mp hspent
    have hnow : since 0 beats = (max every 1).toNat + lag beats := by
      rw [← h.interval]
      omega
    refine ⟨h.interval, hwithin, ?_, h.regular.snoc ?_ fun _ => hnow⟩
    · rw [hsince, hlag]
      exact hcount
    · rw [hsince, hlag]
      exact Nat.le_of_eq hnow
  · cases hdue

theorem counted (h : Paced every 0 beats p) (hdue : Policy.due p = (false, p')) :
    Paced every 1 beats p' := by
  have hcount := h.count
  simp only [Policy.due] at hdue
  split at hdue
  · cases hdue
  · rename_i hleft
    cases hdue
    have hleft : p.steps.toNat < p.every.toNat :=
      Nat.lt_of_not_le fun hle => hleft (UInt64.le_iff_toNat_le.mpr hle)
    have hlimit := p.every.toNat_lt
    have hsteps : (p.steps + 1).toNat = p.steps.toNat + 1 := by
      rw [UInt64.toNat_add]
      exact Nat.mod_eq_of_lt (by change p.steps.toNat + 1 < _; omega)
    refine ⟨h.interval, ?_, ?_, h.regular⟩
    · simp only [hsteps]
      omega
    · simp only [hsteps]
      omega

theorem reseeded (h : Paced every owed beats p) :
    Paced every 1 (beats ++ [.reseeded]) (Policy.completed p) := by
  have hsince : since 0 (beats ++ [.reseeded]) = 0 := since_append 0 beats [.reseeded]
  refine ⟨h.interval, Nat.zero_le _, ?_, h.regular.snoc ?_ fun hno => by cases hno⟩
  · rw [hsince, lag_reseeded]
    rfl
  · rw [hsince]
    exact Nat.zero_le _

theorem served (h : Paced every 1 beats p) : Paced every 0 (beats ++ [.served]) p := by
  have hlag : lag (beats ++ [.served]) = lag beats := lag_append beats (by decide)
  have hsince : since 0 (beats ++ [.served]) = since 0 beats + 1 := since_append 0 beats [.served]
  have hwithin := h.within
  have hcount := h.count
  refine ⟨h.interval, hwithin, ?_, h.regular.snoc ?_ fun hno => by cases hno⟩
  · rw [hsince, hlag]
    exact hcount
  · rw [hsince, hlag, ← h.interval]
    omega

end Paced

def KeepsPace {α : Type} (every : UInt64) (owed : Nat) (beats : List Beat) (p : Policy.Counter)
    (phase : CsprngPhase) : Except Halt α → Prop
  | .ok _ => phase = .seeded ∧ Paced every owed beats p
  | .error _ => phase = .fatal ∧ Regular (max every 1).toNat beats

end Beat

namespace Notified

variable {π : Type} [Policy π] {p p' : Notified π}

theorem due_no (h : Policy.due p = (false, p')) :
    Policy.due p.policy = (false, p'.policy) ∧ p'.entries = p.entries := by
  have hdue : (Policy.due p.policy).1 = false := congrArg Prod.fst h
  have hnext : p' = (Policy.due p).2 := (congrArg Prod.snd h).symm
  refine ⟨Prod.ext hdue (congrArg policy hnext).symm, ?_⟩
  rw [hnext]
  change (if (Policy.due p.policy).1 then _ else _) = _
  rw [hdue]
  rfl

theorem due_yes (h : Policy.due p = (true, p')) :
    Policy.due p.policy = (true, p'.policy) ∧ p'.entries = p.entries ++ [.asked] := by
  have hdue : (Policy.due p.policy).1 = true := congrArg Prod.fst h
  have hnext : p' = (Policy.due p).2 := (congrArg Prod.snd h).symm
  refine ⟨Prod.ext hdue (congrArg policy hnext).symm, ?_⟩
  rw [hnext]
  change (if (Policy.due p.policy).1 then _ else _) = _
  rw [hdue]
  rfl

end Notified

namespace Csprng

open Beat

variable {δ ε : Type} [Drbg δ] [EntropySource ε]

section

variable {every : UInt64} {earlier : List Beat} {g g' : Csprng δ ε (Notified Policy.Counter)}
  {log : List LogLine}

/-! ## One pass -/

theorem Refreshing.paced {owed : Nat} {result : Except Halt Unit}
    (h : Refreshing g ⟨result, g', log⟩)
    (hg : Paced every owed (earlier ++ g.policy.entries) g.policy.policy) :
    KeepsPace every 1 (earlier ++ g'.policy.entries) g'.policy.policy g'.phase result := by
  cases h with
  | dry hdry => exact ⟨rfl, hg.regular⟩
  | refused hseed hanswer => exact ⟨rfl, hg.regular⟩
  | done hseed hanswer =>
    have hnext := hg.reseeded
    rw [List.append_assoc] at hnext
    exact ⟨rfl, hnext⟩

theorem Renewing.paced {result : Except Halt Unit} (h : Renewing g ⟨result, g', log⟩)
    (hphase : g.phase = .seeded)
    (hg : Paced every 0 (earlier ++ g.policy.entries) g.policy.policy) :
    KeepsPace every 1 (earlier ++ g'.policy.entries) g'.policy.policy g'.phase result := by
  cases h with
  | pending hdue hstep =>
    rw [hphase] at hdue
    cases hdue
  | @idle policy _ _ hdue =>
    obtain ⟨hno, hsame⟩ := Notified.due_no hdue
    have hnext := hg.counted hno
    rw [← hsame] at hnext
    exact ⟨hphase, hnext⟩
  | @asked policy _ _ _ _ _ hdue hstep =>
    obtain ⟨hyes, hentry⟩ := Notified.due_yes hdue
    have hnext := hg.asked hyes
    rw [List.append_assoc, ← hentry] at hnext
    exact hstep.paced hnext

theorem Drawing.paced {length : Nat} {result : Except Halt Bytes}
    (h : Drawing length g ⟨result, g', log⟩) (hphase : g.phase = .seeded)
    (hg : Paced every 1 (earlier ++ g.policy.entries) g.policy.policy) :
    KeepsPace every 1 (earlier ++ g'.policy.entries) g'.policy.policy g'.phase result := by
  cases h with
  | served hanswer => exact ⟨hphase, hg⟩
  | failed he hanswer => exact ⟨rfl, hg.regular⟩
  | halted hanswer hstep => exact hstep.paced hg
  | retried hanswer hstep hagain => exact hstep.paced hg
  | failedAgain hanswer hstep hagain => exact ⟨rfl, (hstep.paced hg).2.regular⟩

theorem Refilling.paced {result : Except Halt Unit} (h : Refilling g ⟨result, g', log⟩)
    (hphase : g.phase = .seeded)
    (hg : Paced every 1 (earlier ++ g.policy.entries) g.policy.policy) :
    KeepsPace every 1 (earlier ++ g'.policy.entries) g'.policy.policy g'.phase result := by
  cases h with
  | done hstep => exact hstep.paced hphase hg
  | halted hstep => exact hstep.paced hphase hg

theorem Serving.paced {wanted : Nat} {result : Except Halt Bytes}
    (h : Serving wanted g ⟨result, g', log⟩) (hphase : g.phase = .seeded)
    (hg : Paced every 1 (earlier ++ g.policy.entries) g.policy.policy) :
    KeepsPace every 1 (earlier ++ g'.policy.entries) g'.policy.policy g'.phase result := by
  cases h with
  | cached hheld => exact ⟨hphase, hg⟩
  | refilled hmiss hroom hstep => exact hstep.paced hphase hg
  | halted hmiss hroom hstep => exact hstep.paced hphase hg
  | streamed hmiss hlong hstep => exact hstep.paced hphase hg

theorem Passing.paced {wanted : Nat} {result : Except Halt Bytes}
    (h : Passing wanted g ⟨result, g', log⟩) (hphase : g.phase = .seeded)
    (hg : Paced every 0 (earlier ++ g.policy.entries) g.policy.policy) :
    KeepsPace every 1 (earlier ++ g'.policy.entries) g'.policy.policy g'.phase result := by
  cases h with
  | found hfatal => exact ⟨hfatal, hg.regular⟩
  | halted hlive hrun => exact (renewing_run hrun).paced hphase hg
  | served hlive hrun hstep =>
    obtain ⟨hseeded, hpaced⟩ := (renewing_run hrun).paced hphase hg
    exact hstep.paced hseeded hpaced

end

/-! ## Requests and runs -/

section

variable {π : Type} [Policy π]

def passBeats (wanted : Nat) (g : Csprng δ ε π) : List Beat :=
  (pass wanted g.observed).state.policy.entries ++
    match (pass wanted g.observed).result with
    | .ok _ => [.served]
    | .error _ => []

def requestBeats : Nat → Nat → Csprng δ ε π → List Beat
  | 0, _, _ => []
  | rounds + 1, wanted, g =>
    if wanted = 0 then []
    else
      passBeats wanted g ++
        match (pass wanted g).result with
        | .ok bytes => requestBeats rounds (wanted - bytes.length) (pass wanted g).state
        | .error _ => []

def beats : List Nat → Csprng δ ε π → List Beat
  | [], _ => []
  | length :: lengths, g =>
    requestBeats length length g ++ beats lengths (generate length g).state

theorem beats_fatal {g : Csprng δ ε π} (hg : g.phase = .fatal) (lengths : List Nat) :
    beats lengths g = [] := by
  have hpass : ∀ wanted, passBeats wanted g = [] := by
    intro wanted
    have hfound : pass wanted g.observed = ⟨.error .found, g.observed, []⟩ :=
      pass_found (g := g.observed) hg wanted
    rw [passBeats, hfound]
    rfl
  induction lengths with
  | nil => rfl
  | cons length lengths ih =>
    cases length with
    | zero => exact ih
    | succ length =>
      rw [beats, requestBeats, if_neg (Nat.succ_ne_zero length), hpass, pass_found hg,
        (finished hg).generate, ih]
      rfl

end

section

variable {every : UInt64} {earlier : List Beat} {g : Csprng δ ε Policy.Counter}

theorem pass_paced (wanted : Nat) (hphase : g.phase = .seeded)
    (hg : Paced every 0 earlier g.policy) :
    KeepsPace every 0 (earlier ++ passBeats wanted g) (pass wanted g).state.policy
      (pass wanted g).state.phase (pass wanted g).result := by
  have hstart : Paced every 0 (earlier ++ g.observed.policy.entries) g.observed.policy.policy := by
    rw [show g.observed.policy.entries = [] from rfl, List.append_nil]
    exact hg
  have hstep := passing wanted g.observed
  obtain ⟨hresult, hstate, -⟩ := (pass_coupled observed_lawful wanted).simulates g.observed
  have hsame : image Overheard.drbg Metered.source Notified.policy g.observed = g := rfl
  rw [hsame] at hresult hstate
  rw [passBeats, ← hresult, ← hstate]
  rcases hrun : pass wanted g.observed with ⟨halt | bytes, g', log⟩
  · rw [hrun] at hstep
    have hends := hstep.paced hphase hstart
    rw [List.append_nil]
    exact hends
  · rw [hrun] at hstep
    obtain ⟨hseeded, hpaced⟩ := hstep.paced hphase hstart
    have hserved := hpaced.served
    rw [List.append_assoc] at hserved
    exact ⟨hseeded, hserved⟩

theorem request_paced (rounds wanted : Nat) (hphase : g.phase = .seeded)
    (hg : Paced every 0 earlier g.policy) :
    KeepsPace every 0 (earlier ++ requestBeats rounds wanted g)
      (passes rounds wanted g).state.policy (passes rounds wanted g).state.phase
      (passes rounds wanted g).result := by
  have hnone : ∀ {g : Csprng δ ε Policy.Counter} {earlier : List Beat}, g.phase = .seeded →
      Paced every 0 earlier g.policy →
        KeepsPace every 0 (earlier ++ []) g.policy g.phase (.ok [] : Except Halt Bytes) := by
    intro g earlier hphase hg
    rw [List.append_nil]
    exact ⟨hphase, hg⟩
  induction rounds generalizing wanted g earlier with
  | zero => exact hnone hphase hg
  | succ rounds ih =>
    by_cases hwanted : wanted = 0
    · subst hwanted
      exact hnone hphase hg
    have hpass := pass_paced wanted hphase hg
    rw [requestBeats, if_neg hwanted]
    unfold passes
    simp only [if_neg hwanted]
    rcases hrun : pass wanted g with ⟨halt | bytes, g', log⟩
    · rw [hrun] at hpass
      rw [List.append_nil]
      exact hpass
    · rw [hrun] at hpass
      obtain ⟨hseeded, hpaced⟩ := hpass
      have hrest := ih (wanted - bytes.length) hseeded hpaced
      simp only
      rw [← List.append_assoc]
      cases hlater : (passes rounds (wanted - bytes.length) g').result with
      | error halt =>
        rw [hlater] at hrest
        exact hrest
      | ok rest =>
        rw [hlater] at hrest
        exact hrest

theorem beats_regular (lengths : List Nat) (hphase : g.phase = .seeded)
    (hg : Paced every 0 earlier g.policy) :
    Regular (max every 1).toNat (earlier ++ beats lengths g) := by
  induction lengths generalizing g earlier with
  | nil =>
    rw [beats, List.append_nil]
    exact hg.regular
  | cons length lengths ih =>
    have hrequest := request_paced length length hphase hg
    rw [beats, ← List.append_assoc]
    change KeepsPace every 0 (earlier ++ requestBeats length length g)
      (generate length g).state.policy (generate length g).state.phase
      (generate length g).result at hrequest
    cases hresult : (generate length g).result with
    | ok bytes =>
      rw [hresult] at hrequest
      exact ih hrequest.1 hrequest.2
    | error halt =>
      rw [hresult] at hrequest
      rw [beats_fatal hrequest.1, List.append_nil]
      exact hrequest.2

end

/-- The reseeds of a pass are the ones that the generator took in it. -/
theorem passBeats_reseeded {π : Type} [Policy π] (wanted : Nat) (g : Csprng δ ε π) :
    (passBeats wanted g).count .reseeded =
      Drbg.reseedsTaken (pass wanted g.observed).state.drbg.heard := by
  have htold : (pass wanted g.observed).state.policy.entries.count .reseeded =
      Drbg.reseedsTaken (pass wanted g.observed).state.drbg.heard :=
    (passing wanted g.observed).tallied rfl
  rw [passBeats, List.count_append, htold]
  cases (pass wanted g.observed).result <;> rfl

theorem built_seeded {π : Type} {g : Csprng δ ε π} (hg : Built g) : g.phase = .seeded := by
  cases hg with
  | ofDrbg h => exact (ofDrbg_fresh h).2.order.seeded
  | create h => exact (create_fresh h).2.order.seeded
  | ofEntropySource h =>
    obtain ⟨source, seed, nonce, hcreate⟩ := ofEntropySource_created h
    exact (create_fresh hcreate).2.order.seeded

/-- Whatever is requested, at most `max every 1` steps are served before the first reseed and at
most one more after each; and the policy asks for a reseed when just so many have been. -/
theorem counter_paces_reseeds {δ ε : Type} [Drbg δ] [EntropySource ε] (every : UInt64)
    (g : Csprng δ ε Policy.Counter) (hg : Built g)
    (hpolicy : g.policy = Policy.Counter.create every) (lengths : List Nat)
    (before after : List Beat) (hbeats : beats lengths g = before ++ after) :
    since 0 before ≤ (max every 1).toNat + lag before ∧
      (after.head? = some .asked → since 0 before = (max every 1).toNat + lag before) := by
  have hstart : Paced every 0 [] g.policy := hpolicy ▸ .start every
  exact beats_regular lengths (built_seeded hg) hstart before after hbeats

section

open Replay

def everyOther : Csprng ScriptedDrbg Script Policy.Counter where
  drbg := ⟨0, 65536, [], [], []⟩
  policy := .create 1
  entropy := .ofSteps [⟨.constant 7, none, none, 1⟩, ⟨.constant 9, none, none, 1⟩,
    ⟨.constant 11, none, none, 1⟩]
  cache := []
  cursor := 0
  phase := .seeded
  maxRequest := 16
  entropyLen := 32
  maxRetry := 100

theorem everyOther_built : Built everyOther := by
  have hmade : ofDrbg { cacheSize := 0, maxRequest := 16 } everyOther.drbg everyOther.entropy
      everyOther.policy = .ok everyOther := rfl
  exact .ofDrbg hmade

theorem counter_paces_reseeds_one :
    ∃ before after, beats [8, 8, 8, 8] everyOther = before ++ after ∧
      after.head? = some .asked ∧ since 0 before = 2 := by
  have hbeats : beats [8, 8, 8, 8] everyOther =
      [.served, .asked, .reseeded, .served, .served] ++ [.asked, .reseeded, .served] := by
    decide +kernel
  obtain ⟨-, hasked⟩ :=
    counter_paces_reseeds 1 everyOther everyOther_built rfl [8, 8, 8, 8] _ _ hbeats
  exact ⟨_, _, hbeats, rfl, hasked rfl⟩

/-- Two steps follow a reseed although the interval is one. -/
theorem counter_outlasts_interval :
    ¬ ∀ (every : UInt64) (g : Csprng ScriptedDrbg Script Policy.Counter), Built g →
      g.policy = Policy.Counter.create every →
        ∀ lengths before after, beats lengths g = before ++ after →
          since 0 before ≤ (max every 1).toNat := by
  intro hbound
  have hbeats : beats [8, 8, 8] everyOther =
      [.served, .asked, .reseeded, .served, .served] ++ [] := by
    decide +kernel
  exact absurd (hbound 1 everyOther everyOther_built rfl [8, 8, 8] _ _ hbeats) (by decide)

end

end Csprng

end CryptoPrimitives
