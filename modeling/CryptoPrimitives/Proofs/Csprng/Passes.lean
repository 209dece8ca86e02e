import CryptoPrimitives.Proofs.Csprng.InOrder
import CryptoPrimitives.Proofs.Drbg.Interval

/-!
# Requests served pass by pass

A pass is run once more with all its slices and differences checked, and a request as a loop of such
passes without a bound on their number. On a manager in order no check fails and the loop ends: each
pass halts for good or serves a byte at least and no more than is wanted.
-/

set_option autoImplicit false

namespace CryptoPrimitives

variable {δ ε π : Type}

def Action.thenChecked {σ α β : Type} (x : Action σ α) (k : α → σ → Option (Step σ β)) :
    σ → Option (Step σ β) := fun s =>
  match x s with
  | ⟨.error h, s, log⟩ => some ⟨.error h, s, log⟩
  | ⟨.ok a, s, log⟩ => (k a s).map fun next => ⟨next.result, next.state, log ++ next.log⟩

theorem Action.thenChecked_eq {σ α β : Type} {x : Action σ α} {k : α → σ → Option (Step σ β)}
    {f : α → Action σ β} {s : σ}
    (h : ∀ a s' log, x s = ⟨.ok a, s', log⟩ → k a s' = some (f a s')) :
    x.thenChecked k s = some ((x >>= f) s) := by
  unfold thenChecked
  rcases hx : x s with ⟨halt | a, s', log⟩
  · rw [Action.bind_error hx]
  · simp only [h a s' log hx, Option.map_some, Action.bind_ok hx]

namespace Csprng

/-! ## Checked accesses -/

def drainChecked (length : Nat) (g : Csprng δ ε π) : Option (Step (Csprng δ ε π) Bytes) :=
  if g.cursor + length ≤ g.cache.length then some (drain length g) else none

section

variable [Drbg δ] [EntropySource ε] [Policy π]

def serveChecked (wanted : Nat) (g : Csprng δ ε π) : Option (Step (Csprng δ ε π) Bytes) :=
  if g.cache.length < g.cursor then none
  else if wanted ≤ g.cache.length - g.cursor then drainChecked wanted g
  else if wanted < g.cache.length then
    Action.thenChecked refill (fun _ => drainChecked wanted) g
  else some (draw (min wanted g.maxRequest) g)

def passChecked (wanted : Nat) : Csprng δ ε π → Option (Step (Csprng δ ε π) Bytes) :=
  Action.thenChecked enter fun _ => Action.thenChecked refreshIfDue fun _ => serveChecked wanted

variable {size limit : Nat} {J : δ → Prop} {g : Csprng δ ε π}

omit [Drbg δ] [EntropySource ε] [Policy π] in
theorem InOrder.drainChecked_eq (hg : InOrder size g) {wanted : Nat}
    (h : wanted ≤ g.cache.length - g.cursor) : drainChecked wanted g = some (drain wanted g) := by
  have hbounded := hg.bounded
  exact if_pos (by omega)

theorem Live.serveChecked_eq (hJ : Drbg.Upheld limit J) (hg : Live size limit J g)
    (hsize : size ≤ limit) (wanted : Nat) : serveChecked wanted g = some (serve wanted g) := by
  unfold serveChecked serve
  rw [if_neg (Nat.not_lt.mpr hg.order.bounded), Action.get_bind]
  split
  · rename_i hheld
    exact hg.order.drainChecked_eq hheld
  · split
    · rename_i hroom
      apply Action.thenChecked_eq
      intro u g' log hrun
      have hstep := refilling g
      rw [hrun] at hstep
      obtain ⟨hlive, hcursor⟩ := hstep.live hJ hg hsize (by omega)
      apply hlive.order.drainChecked_eq
      rw [hcursor, hlive.order.sized, ← hg.order.sized]
      omega
    · rfl

theorem Live.passChecked_eq (hJ : Drbg.Upheld limit J) (hg : Live size limit J g)
    (hsize : size ≤ limit) (wanted : Nat) : passChecked wanted g = some (pass wanted g) := by
  apply Action.thenChecked_eq
  intro u g1 log henter
  have hsame : g1 = g := by
    rw [enter_run] at henter
    split at henter <;> cases henter
    rfl
  subst hsame
  apply Action.thenChecked_eq
  intro u' g2 log' hrun
  exact ((renewing_run hrun).live hJ hg).serveChecked_eq hJ hsize wanted

/-! ## The loop of a request -/

inductive Filling : Nat → Nat → Csprng δ ε π → Step (Csprng δ ε π) Bytes → Prop
  | done {g : Csprng δ ε π} : Filling 0 0 g ⟨.ok [], g, []⟩
  | halted {wanted : Nat} {g g' : Csprng δ ε π} {halt : Halt} {log : List LogLine}
      (hwanted : 1 ≤ wanted) (hpass : passChecked wanted g = some ⟨.error halt, g', log⟩)
      (hfatal : g'.phase = .fatal) : Filling 1 wanted g ⟨.error halt, g', log⟩
  | served {count wanted : Nat} {g g' : Csprng δ ε π} {bytes : Bytes} {log : List LogLine}
      {rest : Step (Csprng δ ε π) Bytes} (hwanted : 1 ≤ wanted)
      (hpass : passChecked wanted g = some ⟨.ok bytes, g', log⟩) (hsome : 1 ≤ bytes.length)
      (hfit : bytes.length ≤ wanted) (hrest : Filling count (wanted - bytes.length) g' rest) :
      Filling (count + 1) wanted g ⟨rest.result.map (bytes ++ ·), rest.state, log ++ rest.log⟩

theorem Filling.count_le {count wanted : Nat} {step : Step (Csprng δ ε π) Bytes}
    (h : Filling count wanted g step) : count ≤ wanted := by
  induction h with
  | done => exact Nat.le_refl 0
  | halted hwanted hpass hfatal => exact hwanted
  | served hwanted hpass hsome hfit hrest ih => omega

/-- A request brings all its bytes, or the manager is fatal. -/
theorem Filling.ends {count wanted : Nat} {step : Step (Csprng δ ε π) Bytes}
    (h : Filling count wanted g step) :
    (∃ bytes, step.result = .ok bytes ∧ bytes.length = wanted) ∨
      ((∃ halt, step.result = .error halt) ∧ step.state.phase = .fatal) := by
  induction h with
  | done => exact .inl ⟨[], rfl, rfl⟩
  | halted hwanted hpass hfatal => exact .inr ⟨⟨_, rfl⟩, hfatal⟩
  | @served count wanted g g' bytes log rest hwanted hpass hsome hfit hrest ih =>
    rcases ih with ⟨later, hresult, hlength⟩ | ⟨⟨halt, hresult⟩, hfatal⟩
    · refine .inl ⟨bytes ++ later, ?_, ?_⟩
      · simp only [hresult]
        rfl
      · rw [List.length_append, hlength]
        omega
    · refine .inr ⟨⟨halt, ?_⟩, hfatal⟩
      simp only [hresult]
      rfl

theorem passes_filling (hJ : Drbg.Upheld limit J) (hlimit : 1 ≤ limit) (hsize : size ≤ limit)
    (rounds wanted : Nat) (hrounds : wanted ≤ rounds) (hg : Live size limit J g) :
    ∃ count, Filling count wanted g (passes rounds wanted g) := by
  induction rounds generalizing wanted g with
  | zero =>
    obtain rfl : wanted = 0 := by omega
    exact ⟨0, .done⟩
  | succ rounds ih =>
    by_cases hwanted : wanted = 0
    · subst hwanted
      exact ⟨0, .done⟩
    unfold passes
    rw [if_neg hwanted]
    have hadvanced := pass_advanced wanted hJ hg hlimit hsize
    have hchecked := hg.passChecked_eq hJ hsize wanted
    rcases hrun : pass wanted g with ⟨halt | bytes, g', log⟩
    · rw [hrun] at hadvanced hchecked
      exact ⟨1, .halted (by omega) hchecked hadvanced.fatal⟩
    · rw [hrun] at hadvanced hchecked
      obtain ⟨hlive, hfit, hsome⟩ := hadvanced
      obtain ⟨count, hrest⟩ := ih (wanted - bytes.length) (by have := hsome (by omega); omega) hlive
      exact ⟨count + 1, .served (by omega) hchecked (hsome (by omega)) hfit hrest⟩

end

/-! ## Managers as they are made -/

inductive MadeWith {ε π : Type} [EntropySource ε] (settings : CsprngSettings) :
    {δ : Type} → [Drbg δ] → Csprng δ ε π → Prop
  | ofDrbg {δ : Type} [Drbg δ] {drbg : δ} {entropy : ε} {policy : π} {g : Csprng δ ε π}
      (hfills : Drbg.Fills drbg) (h : ofDrbg settings drbg entropy policy = .ok g) :
      MadeWith settings g
  | create {entropy : ε} {policy : π} {seed nonce personalization : Bytes}
      {g : Csprng Generator ε π}
      (h : (create settings entropy policy seed nonce personalization).val = .ok g) :
      MadeWith settings g
  | ofEntropySource {entropy : ε} {policy : π} {personalization : Bytes} {g : Csprng Generator ε π}
      (h : (ofEntropySource settings entropy policy personalization).val.1 = .ok g) :
      MadeWith settings g

structure Fresh [Drbg δ] (settings : CsprngSettings) (g : Csprng δ ε π) : Prop where
  positive : 1 ≤ g.maxRequest
  accepted : g.maxRequest ≤ Drbg.maxRequestSize g.drbg
  order : InOrder (min settings.cacheSize g.maxRequest) g
  seedLen : g.entropyLen = settings.seedLen

theorem ofDrbg_fresh [Drbg δ] {settings : CsprngSettings} {drbg : δ} {entropy : ε} {policy : π}
    {g : Csprng δ ε π} (h : ofDrbg settings drbg entropy policy = .ok g) :
    g.drbg = drbg ∧ Fresh settings g := by
  simp only [ofDrbg] at h
  split at h
  · cases h
  · rename_i hpositive
    cases h
    have hlength := Bytes.length_zeros
      (min settings.cacheSize (min settings.maxRequest (Drbg.maxRequestSize drbg)))
    exact ⟨rfl, Nat.pos_of_ne_zero hpositive, Nat.min_le_right _ _,
      ⟨rfl, hlength, Nat.le_of_eq hlength.symm, List.take_of_length_le (Nat.le_of_eq hlength)⟩, rfl⟩

theorem create_fresh {settings : CsprngSettings} {entropy : ε} {policy : π}
    {seed nonce personalization : Bytes} {g : Csprng Generator ε π}
    (h : (create settings entropy policy seed nonce personalization).val = .ok g) :
    (settings.drbg.instantiate seed nonce personalization).val = .ok g.drbg ∧
      Fresh settings g := by
  obtain ⟨drbg, hdrbg, hmade⟩ := create_instantiated h
  obtain ⟨hsame, hfresh⟩ := ofDrbg_fresh hmade
  exact ⟨hsame.symm ▸ hdrbg, hfresh⟩

theorem MadeWith.fresh [EntropySource ε] [Drbg δ] {settings : CsprngSettings} {g : Csprng δ ε π}
    (hg : MadeWith settings g) : Drbg.Fills g.drbg ∧ Fresh settings g := by
  cases hg with
  | ofDrbg hfills h =>
    obtain ⟨hsame, hfresh⟩ := ofDrbg_fresh h
    exact ⟨hsame ▸ hfills, hfresh⟩
  | create h =>
    obtain ⟨hmade, hfresh⟩ := create_fresh h
    exact ⟨(Mechanism.instantiate_fits hmade).1.fills, hfresh⟩
  | ofEntropySource h =>
    obtain ⟨source, seed, nonce, hcreate⟩ := ofEntropySource_created h
    obtain ⟨hmade, hfresh⟩ := create_fresh hcreate
    exact ⟨(Mechanism.instantiate_fits hmade).1.fills, hfresh⟩

end Csprng

def Overheard.AskedWithin (limit : Nat) (d : Overheard δ) : Prop :=
  ∀ length additional answer, (.generate length additional, answer) ∈ d.heard →
    1 ≤ length ∧ length ≤ limit ∧ additional = none

def Drbg.Steady [Drbg δ] (d : δ) : Prop :=
  ∀ d', Drbg.Reachable (· = d) d' → Drbg.maxRequestSize d' = Drbg.maxRequestSize d

theorem Drbg.Reachable.source [Drbg δ] {Made : δ → Prop} {d' : δ} (h : Drbg.Reachable Made d') :
    ∃ d, Made d ∧ Drbg.Reachable (· = d) d' := by
  induction h with
  | @made d h => exact ⟨d, h, .made rfl⟩
  | answer call h ih =>
    obtain ⟨d, hmade, hd⟩ := ih
    exact ⟨d, hmade, hd.answer call⟩
  | done h ih =>
    obtain ⟨d, hmade, hd⟩ := ih
    exact ⟨d, hmade, hd.done⟩

theorem Drbg.upheld_of_fills [Drbg δ] {Made : δ → Prop} (hfills : ∀ d, Made d → Drbg.Fills d)
    (limit : Nat) : Drbg.Upheld limit (Drbg.Reachable Made) where
  generate := by
    rintro d1 d2 length answer hreached - - hanswer
    have hnext := hreached.answer (.generate length none)
    rw [Drbg.answer, hanswer] at hnext
    exact hnext
  fills := by
    rintro d1 d2 length bytes hreached hanswer
    obtain ⟨d, hmade, hd1⟩ := hreached.source
    exact hfills d hmade d1 hd1 length none bytes (by rw [hanswer])
  reseed := by
    rintro d1 d2 seed additional answer hreached hanswer
    have hnext := hreached.answer (.reseed seed additional)
    rw [Drbg.answer, hanswer] at hnext
    exact hnext
  done hreached := hreached.done

theorem Drbg.reachable_upheld [Drbg δ] {d : δ} (hd : Drbg.Fills d) (limit : Nat) :
    Drbg.Upheld limit (Drbg.Reachable (· = d)) :=
  Drbg.upheld_of_fills (fun _ h => h ▸ hd) limit

theorem Overheard.askedWithin_upheld [Drbg δ] {limit : Nat} {J : δ → Prop}
    (hJ : Drbg.Upheld limit J) :
    Drbg.Upheld limit fun d : Overheard δ => J d.drbg ∧ d.AskedWithin limit where
  generate := by
    rintro d d' length answer ⟨hd, hasked⟩ hone hlimit hanswer
    obtain ⟨hrun, hheard⟩ := generate_run hanswer
    refine ⟨hJ.generate hd hone hlimit hrun, ?_⟩
    intro length' additional answer' hmem
    rw [hheard] at hmem
    rcases List.mem_append.mp hmem with hold | hnew
    · exact hasked _ _ _ hold
    · cases List.mem_singleton.mp hnew
      exact ⟨hone, hlimit, rfl⟩
  fills := by
    rintro d d' length bytes ⟨hd, -⟩ hanswer
    exact hJ.fills hd (generate_run hanswer).1
  reseed := by
    rintro d d' seed additional answer ⟨hd, hasked⟩ hanswer
    obtain ⟨hrun, hheard⟩ := reseed_run hanswer
    refine ⟨hJ.reseed hd hrun, ?_⟩
    intro length' additional' answer' hmem
    rw [hheard] at hmem
    rcases List.mem_append.mp hmem with hold | hnew
    · exact hasked _ _ _ hold
    · cases List.mem_singleton.mp hnew
  done := by
    rintro d ⟨hd, hasked⟩
    exact ⟨hJ.done hd, hasked⟩

namespace Csprng

open Replay

theorem Fresh.live [Drbg δ] {settings : CsprngSettings} {g : Csprng δ ε π} (hg : Fresh settings g) :
    Live (min settings.cacheSize g.maxRequest) g.maxRequest (Drbg.Reachable (· = g.drbg)) g :=
  ⟨⟨.made rfl, rfl⟩, hg.order⟩

theorem Fresh.overheard_live [Drbg δ] {settings : CsprngSettings} {g : Csprng δ ε π}
    (hg : Fresh settings g) :
    Live (min settings.cacheSize g.maxRequest) g.maxRequest
      (fun d : Overheard δ => Drbg.Reachable (· = g.drbg) d.drbg ∧ d.AskedWithin g.maxRequest)
      g.overheard :=
  ⟨⟨⟨.made rfl, fun _ _ _ hmem => absurd hmem List.not_mem_nil⟩, rfl⟩,
    ⟨hg.order.seeded, hg.order.sized, hg.order.bounded, hg.order.wiped⟩⟩

/-- After any steps a manager is fatal for good or in order, and then each request is a loop of
passes that ends. The generator is asked only for what it may be asked for. -/
theorem fatal_or_in_order [Drbg δ] [EntropySource ε] [Policy π] (settings : CsprngSettings)
    (g : Csprng δ ε π) (hg : MadeWith settings g) (ops : List Locked) :
    let after := (run ops g).2
    let recorded := (run ops g.overheard).2
    (1 ≤ g.maxRequest ∧ g.maxRequest ≤ Drbg.maxRequestSize g.drbg ∧
      after.maxRequest = g.maxRequest ∧
      (Drbg.Steady g.drbg → after.maxRequest ≤ Drbg.maxRequestSize after.drbg)) ∧
    (recorded.plain = after ∧ recorded.drbg.AskedWithin g.maxRequest) ∧
    (Finished after ∨
      InOrder (min settings.cacheSize g.maxRequest) after ∧
        ∀ length, ∃ count ≤ length, Filling count length after (generate length after) ∧
          ((∃ bytes, (generate length after).result = .ok bytes ∧ bytes.length = length) ∨
            ((∃ halt, (generate length after).result = .error halt) ∧
              (generate length after).state.phase = .fatal))) := by
  obtain ⟨hfills, hfresh⟩ := hg.fresh
  have hsize := Nat.min_le_right settings.cacheSize g.maxRequest
  have hJ := Drbg.reachable_upheld hfills g.maxRequest
  have hended := run_live hJ hfresh.positive hsize ops hfresh.live
  have hworks : Works g.maxRequest (Drbg.Reachable (· = g.drbg)) (run ops g).2 :=
    hended.elim Live.works Dead.works
  have hasked := (run_live (Overheard.askedWithin_upheld hJ) hfresh.positive hsize ops
    hfresh.overheard_live).elim Live.works Dead.works
  have hsteady : Drbg.Steady g.drbg →
      (run ops g).2.maxRequest ≤ Drbg.maxRequestSize (run ops g).2.drbg := by
    intro hsteady
    rw [hworks.limited, hsteady _ hworks.upheld]
    exact hfresh.accepted
  refine ⟨⟨hfresh.positive, hfresh.accepted, hworks.limited, hsteady⟩,
    ⟨(run_heard ops g.overheard).2, hasked.upheld.2⟩, ?_⟩
  rcases hended with hlive | hdead
  · refine .inr ⟨hlive.order, fun length => ?_⟩
    obtain ⟨count, hfilling⟩ :=
      passes_filling hJ hfresh.positive hsize length length (Nat.le_refl _) hlive
    exact ⟨count, hfilling.count_le, hfilling, hfilling.ends⟩
  · exact .inl (finished hdead.fatal)

theorem scripted_fills (d : ScriptedDrbg) : Drbg.Fills d := by
  intro d' _ length additional bytes hserved
  change (d'.generate length additional).1 = .ok bytes at hserved
  unfold ScriptedDrbg.generate at hserved
  split at hserved
  · cases hserved
  · cases hserved
    rw [List.length_map, List.length_range]

/-- The source brings one seed: the second reseed that the policy asks for finds it exhausted. -/
theorem fatal_or_in_order_scripted :
    ∃ g : Csprng ScriptedDrbg Script (Policy.Custom AnswerList),
      MadeWith { cacheSize := 4, maxRequest := 16, entropyLen := some 2, maxReseedRetry := 1 } g ∧
      InOrder 4 (run [.pass 3, .pass 3] g).2 ∧
      (∃ count ≤ 20, Filling count 20 (run [.pass 3, .pass 3] g).2
        (generate 20 (run [.pass 3, .pass 3] g).2)) ∧
      Finished (run [.pass 3, .pass 3, .pass 9] g).2 := by
  let g : Csprng ScriptedDrbg Script (Policy.Custom AnswerList) :=
    { drbg := ⟨0, 16, [], [], []⟩, entropy := .ofSteps [⟨.constant 7, none, none, 1⟩],
      policy := answerPolicy [false, true, true], cache := [0, 0, 0, 0], cursor := 4,
      phase := .seeded, maxRequest := 16, entropyLen := 2, maxRetry := 1 }
  have hmade : MadeWith
      { cacheSize := 4, maxRequest := 16, entropyLen := some 2, maxReseedRetry := 1 } g :=
    .ofDrbg (scripted_fills ⟨0, 16, [], [], []⟩) rfl
  have hlive : (run [.pass 3, .pass 3] g).2.phase = .seeded := by decide +kernel
  have hfatal : (run [.pass 3, .pass 3, .pass 9] g).2.phase = .fatal := by decide +kernel
  obtain ⟨-, -, hfinished | ⟨horder, hfilling⟩⟩ := fatal_or_in_order _ g hmade [.pass 3, .pass 3]
  · rw [hfinished.fatal] at hlive
    cases hlive
  obtain ⟨-, -, hfinished | ⟨hseeded, -⟩⟩ := fatal_or_in_order _ g hmade [.pass 3, .pass 3, .pass 9]
  · obtain ⟨count, hcount, hrun, -⟩ := hfilling 20
    exact ⟨g, hmade, horder, ⟨count, hcount, hrun⟩, hfinished⟩
  · rw [hseeded.seeded] at hfatal
    cases hfatal

end Csprng

end CryptoPrimitives
