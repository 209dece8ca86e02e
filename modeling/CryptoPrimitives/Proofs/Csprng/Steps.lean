import CryptoPrimitives.Csprng.Manager
import CryptoPrimitives.Proofs.Csprng.Simulation
import CryptoPrimitives.Proofs.Entropy.Exhaustion

/-!
# What the actions of a manager can do

All outcomes of each action, with the answers of the generator and the policy that lead there and
the state that is left. What later modules say of a run they prove from these, case by case.
-/

set_option autoImplicit false

namespace CryptoPrimitives

namespace Csprng

variable {δ ε π : Type}

theorem enter_run (g : Csprng δ ε π) :
    enter g = if g.phase = .fatal then ⟨.error .found, g, []⟩ else ⟨.ok (), g, []⟩ := by
  unfold enter
  rw [Action.get_bind]
  split <;> rfl

theorem callDrbg_run [Drbg δ] {length : Nat} {g : Csprng δ ε π} {answer : Except Fault Bytes}
    {drbg : δ} (h : Drbg.generate g.drbg length none = (answer, drbg)) :
    callDrbg length g = ⟨.ok answer, { g with drbg }, []⟩ := by
  unfold callDrbg Action.query
  simp only [h]

theorem reseedDrbg_run [Drbg δ] {seed : Bytes} {additional : Option Bytes} {g : Csprng δ ε π}
    {answer : Except Fault Unit} {drbg : δ}
    (h : Drbg.reseed g.drbg seed additional = (answer, drbg)) :
    reseedDrbg seed additional g = ⟨.ok answer, { g with drbg }, []⟩ := by
  unfold reseedDrbg Action.query
  simp only [h]

theorem collectSeed_eq [EntropySource ε] (g : Csprng δ ε π) : collectSeed g =
    ⟨.ok ((collect g.entropy g.entropyLen g.maxRetry).val.outcome.map fun _ =>
        (collect g.entropy g.entropyLen g.maxRetry).val.buffer),
      { g with entropy := (collect g.entropy g.entropyLen g.maxRetry).val.source },
      (collect g.entropy g.entropyLen g.maxRetry).entries ++ []⟩ := rfl

/-- The seed that a collection brings has the configured length, or the source is exhausted. -/
theorem collectSeed_run [EntropySource ε] (g : Csprng δ ε π) :
    ∃ source log,
      (∃ seed, collectSeed g = ⟨.ok (.ok seed), { g with entropy := source }, log⟩ ∧
        seed.length = g.entropyLen) ∨
      (collectSeed g =
          ⟨.ok (.error .entropySourceFailure), { g with entropy := source }, log⟩ ∧
        Exhausted g.entropy g.entropyLen g.maxRetry) := by
  have hrun := collectSeed_eq g
  refine ⟨(collect g.entropy g.entropyLen g.maxRetry).val.source,
    (collect g.entropy g.entropyLen g.maxRetry).entries ++ [], ?_⟩
  rcases collect_ends g.entropy g.entropyLen g.maxRetry with ⟨hok, hlen⟩ | ⟨herror, hdry⟩
  · rw [hok] at hrun
    exact .inl ⟨_, hrun, hlen⟩
  · rw [herror] at hrun
    exact .inr ⟨hrun, hdry⟩

variable [Drbg δ] [EntropySource ε] [Policy π]

/-! ## Reseeds -/

inductive Refreshing (g : Csprng δ ε π) : Step (Csprng δ ε π) Unit → Prop
  | dry {source : ε} {log : List LogLine} (h : Exhausted g.entropy g.entropyLen g.maxRetry) :
      Refreshing g
        ⟨.error (.entered .entropySourceFailure), ruined { g with entropy := source }, log⟩
  | refused {seed : Bytes} {source : ε} {e : Fault} {drbg : δ} {log : List LogLine}
      (hseed : seed.length = g.entropyLen) (h : Drbg.reseed g.drbg seed none = (.error e, drbg)) :
      Refreshing g ⟨.error (.entered e), ruined { g with entropy := source, drbg }, log⟩
  | done {seed : Bytes} {source : ε} {drbg : δ} {log : List LogLine}
      (hseed : seed.length = g.entropyLen) (h : Drbg.reseed g.drbg seed none = (.ok (), drbg)) :
      Refreshing g ⟨.ok (), refreshed { g with entropy := source, drbg }, log⟩

theorem refreshing (g : Csprng δ ε π) : Refreshing g (refresh g) := by
  unfold refresh
  obtain ⟨source, log, ⟨seed, hcollect, hlen⟩ | ⟨hcollect, hdry⟩⟩ := collectSeed_run g
  · rw [Action.bind_ok hcollect]
    cases hanswer : Drbg.reseed g.drbg seed none with
    | mk answer drbg =>
      have hreseed := reseedDrbg_run (g := { g with entropy := source }) hanswer
      simp only [Action.bind_ok hreseed]
      cases answer with
      | error e => exact .refused hlen hanswer
      | ok u => exact .done hlen hanswer
  · rw [Action.bind_ok hcollect]
    exact .dry hdry

inductive Renewing (g : Csprng δ ε π) : Step (Csprng δ ε π) Unit → Prop
  | pending {result : Except Halt Unit} {g' : Csprng δ ε π} {log log' : List LogLine}
      (hphase : g.phase = .reseedDue)
      (hstep : Refreshing { g with phase := .reseedDue } ⟨result, g', log⟩) :
      Renewing g ⟨result, g', log'⟩
  | idle {policy : π} {log : List LogLine} (hphase : g.phase ≠ .reseedDue)
      (h : Policy.due g.policy = (false, policy)) :
      Renewing g ⟨.ok (), { g with policy }, log⟩
  | asked {policy : π} {result : Except Halt Unit} {g' : Csprng δ ε π} {log log' : List LogLine}
      (hphase : g.phase ≠ .reseedDue) (h : Policy.due g.policy = (true, policy))
      (hstep : Refreshing { g with policy, phase := .reseedDue } ⟨result, g', log⟩) :
      Renewing g ⟨result, g', log'⟩

theorem renewing (g : Csprng δ ε π) : Renewing g (refreshIfDue g) := by
  unfold refreshIfDue
  rw [Action.get_bind]
  by_cases hphase : g.phase = .reseedDue
  · simp only [if_pos hphase]
    exact .pending hphase (refreshing _)
  · simp only [if_neg hphase]
    cases hdue : Policy.due g.policy with
    | mk due policy =>
      have hask : askPolicy g =
          (⟨.ok due, { g with policy }, []⟩ : Step (Csprng δ ε π) Bool) := by
        unfold askPolicy Action.query
        simp only [hdue]
      rw [Action.bind_ok hask]
      cases due with
      | false => exact .idle hphase hdue
      | true => exact .asked hphase hdue (refreshing _)

theorem renewing_run {g : Csprng δ ε π} {step : Step (Csprng δ ε π) Unit}
    (h : refreshIfDue g = step) : Renewing g step := h ▸ renewing g

/-! ## Bytes -/

inductive Drawing (length : Nat) (g : Csprng δ ε π) : Step (Csprng δ ε π) Bytes → Prop
  | served {bytes : Bytes} {drbg : δ} {log : List LogLine}
      (h : Drbg.generate g.drbg length none = (.ok bytes, drbg)) :
      Drawing length g ⟨.ok bytes, { g with drbg }, log⟩
  | failed {e : Fault} {drbg : δ} {log : List LogLine} (he : e ≠ .drbgReseedRequired)
      (h : Drbg.generate g.drbg length none = (.error e, drbg)) :
      Drawing length g ⟨.error (.entered e), ruined { g with drbg }, log⟩
  | halted {drbg : δ} {halt : Halt} {g' : Csprng δ ε π} {log log' : List LogLine}
      (h : Drbg.generate g.drbg length none = (.error .drbgReseedRequired, drbg))
      (hstep : Refreshing { g with drbg, phase := .reseedDue } ⟨.error halt, g', log⟩) :
      Drawing length g ⟨.error halt, g', log'⟩
  | retried {drbg drbg' : δ} {g' : Csprng δ ε π} {bytes : Bytes} {log log' : List LogLine}
      (h : Drbg.generate g.drbg length none = (.error .drbgReseedRequired, drbg))
      (hstep : Refreshing { g with drbg, phase := .reseedDue } ⟨.ok (), g', log⟩)
      (h' : Drbg.generate g'.drbg length none = (.ok bytes, drbg')) :
      Drawing length g ⟨.ok bytes, { g' with drbg := drbg' }, log'⟩
  | failedAgain {drbg drbg' : δ} {g' : Csprng δ ε π} {e : Fault} {log log' : List LogLine}
      (h : Drbg.generate g.drbg length none = (.error .drbgReseedRequired, drbg))
      (hstep : Refreshing { g with drbg, phase := .reseedDue } ⟨.ok (), g', log⟩)
      (h' : Drbg.generate g'.drbg length none = (.error e, drbg')) :
      Drawing length g ⟨.error (.entered e), ruined { g' with drbg := drbg' }, log'⟩

theorem drawing (length : Nat) (g : Csprng δ ε π) : Drawing length g (draw length g) := by
  unfold draw
  cases hanswer : Drbg.generate g.drbg length none with
  | mk answer drbg =>
    rw [Action.bind_ok (callDrbg_run hanswer)]
    rcases answer with e | bytes
    · by_cases he : e = .drbgReseedRequired
      · subst he
        simp only [Action.modify_bind]
        have hrefresh := refreshing { g with drbg, phase := .reseedDue }
        rcases hrun : refresh { g with drbg, phase := .reseedDue } with ⟨halt | u, g', log⟩
        · rw [hrun] at hrefresh
          simp only [Action.bind_error hrun]
          exact .halted hanswer hrefresh
        · rw [hrun] at hrefresh
          simp only [Action.bind_ok hrun]
          cases hagain : Drbg.generate g'.drbg length none with
          | mk again drbg' =>
            simp only [Action.bind_ok (callDrbg_run hagain)]
            cases again with
            | error e => exact .failedAgain hanswer hrefresh hagain
            | ok bytes => exact .retried hanswer hrefresh hagain
      · cases e with
        | drbgReseedRequired => exact absurd rfl he
        | _ => exact .failed he hanswer
    · exact .served hanswer

inductive Refilling (g : Csprng δ ε π) : Step (Csprng δ ε π) Unit → Prop
  | done {g' : Csprng δ ε π} {bytes : Bytes} {log log' : List LogLine}
      (hstep : Drawing g.cache.length { g with cache := [] } ⟨.ok bytes, g', log⟩) :
      Refilling g ⟨.ok (), { g' with cache := bytes, cursor := 0 }, log'⟩
  | halted {g' : Csprng δ ε π} {halt : Halt} {log log' : List LogLine}
      (hstep : Drawing g.cache.length { g with cache := [] } ⟨.error halt, g', log⟩) :
      Refilling g ⟨.error halt, g', log'⟩

theorem refilling (g : Csprng δ ε π) : Refilling g (refill g) := by
  unfold refill
  rw [Action.get_bind, Action.modify_bind]
  have hdraw := drawing g.cache.length { g with cache := [] }
  rcases hrun : draw g.cache.length { g with cache := [] } with ⟨halt | bytes, g', log⟩
  · rw [hrun] at hdraw
    simp only [Action.bind_error hrun]
    exact .halted hdraw
  · rw [hrun] at hdraw
    simp only [Action.bind_ok hrun]
    exact .done hdraw

inductive Serving (wanted : Nat) (g : Csprng δ ε π) : Step (Csprng δ ε π) Bytes → Prop
  | cached {log : List LogLine} (h : wanted ≤ g.cache.length - g.cursor) :
      Serving wanted g ⟨.ok ((g.cache.drop g.cursor).take wanted), (drain wanted g).state, log⟩
  | refilled {g' : Csprng δ ε π} {log log' : List LogLine}
      (hmiss : g.cache.length - g.cursor < wanted) (h : wanted < g.cache.length)
      (hstep : Refilling g ⟨.ok (), g', log⟩) :
      Serving wanted g ⟨.ok ((g'.cache.drop g'.cursor).take wanted), (drain wanted g').state, log'⟩
  | halted {g' : Csprng δ ε π} {halt : Halt} {log log' : List LogLine}
      (hmiss : g.cache.length - g.cursor < wanted) (h : wanted < g.cache.length)
      (hstep : Refilling g ⟨.error halt, g', log⟩) :
      Serving wanted g ⟨.error halt, g', log'⟩
  | streamed {result : Except Halt Bytes} {g' : Csprng δ ε π} {log log' : List LogLine}
      (hmiss : g.cache.length - g.cursor < wanted) (h : g.cache.length ≤ wanted)
      (hstep : Drawing (min wanted g.maxRequest) g ⟨result, g', log⟩) :
      Serving wanted g ⟨result, g', log'⟩

theorem serving (wanted : Nat) (g : Csprng δ ε π) : Serving wanted g (serve wanted g) := by
  unfold serve
  rw [Action.get_bind]
  split
  · rename_i hheld
    exact .cached hheld
  · rename_i hmiss
    have hmiss := Nat.lt_of_not_le hmiss
    split
    · rename_i hroom
      have hrefill := refilling g
      rcases hrun : refill g with ⟨halt | u, g', log⟩
      · rw [hrun] at hrefill
        simp only [Action.bind_error hrun]
        exact .halted hmiss hroom hrefill
      · rw [hrun] at hrefill
        simp only [Action.bind_ok hrun]
        exact .refilled hmiss hroom hrefill
    · rename_i hroom
      exact .streamed hmiss (Nat.le_of_not_lt hroom) (drawing _ _)

inductive Passing (wanted : Nat) (g : Csprng δ ε π) : Step (Csprng δ ε π) Bytes → Prop
  | found (hphase : g.phase = .fatal) : Passing wanted g ⟨.error .found, g, []⟩
  | halted {g' : Csprng δ ε π} {halt : Halt} {log log' : List LogLine} (hphase : g.phase ≠ .fatal)
      (hrun : refreshIfDue g = ⟨.error halt, g', log⟩) : Passing wanted g ⟨.error halt, g', log'⟩
  | served {result : Except Halt Bytes} {g1 g' : Csprng δ ε π} {log log' log'' : List LogLine}
      (hphase : g.phase ≠ .fatal) (hrun : refreshIfDue g = ⟨.ok (), g1, log⟩)
      (hstep : Serving wanted g1 ⟨result, g', log'⟩) : Passing wanted g ⟨result, g', log''⟩

theorem passing (wanted : Nat) (g : Csprng δ ε π) : Passing wanted g (pass wanted g) := by
  have henter := enter_run g
  unfold pass
  split at henter
  · rename_i hphase
    rw [Action.bind_error henter]
    exact .found hphase
  · rename_i hphase
    rw [Action.bind_ok henter]
    rcases hrun : refreshIfDue g with ⟨halt | u, g', log⟩
    · simp only [Action.bind_error hrun]
      exact .halted hphase hrun
    · simp only [Action.bind_ok hrun]
      exact .served hphase hrun (serving wanted g')

/-! ## Explicit reseeds -/

inductive Reseeding (g : Csprng δ ε π) : Step (Csprng δ ε π) (Except Fault Unit) → Prop
  | found (hphase : g.phase = .fatal) : Reseeding g ⟨.error .found, g, []⟩
  | dry {source : ε} {e : Fault} {log : List LogLine} (hphase : g.phase ≠ .fatal) :
      Reseeding g ⟨.ok (.error e), { g with entropy := source }, log⟩
  | refused {seed nonce : Bytes} {source : ε} {e : Fault} {drbg : δ} {log : List LogLine}
      (hphase : g.phase ≠ .fatal) (h : Drbg.reseed g.drbg seed (some nonce) = (.error e, drbg)) :
      Reseeding g ⟨.ok (.error e), { g with entropy := source, drbg }, log⟩
  | done {seed nonce : Bytes} {source : ε} {drbg : δ} {log : List LogLine}
      (hphase : g.phase ≠ .fatal) (h : Drbg.reseed g.drbg seed (some nonce) = (.ok (), drbg)) :
      Reseeding g ⟨.ok (.ok ()), refreshed { g with entropy := source, drbg }, log⟩

def reseedFrom (seed nonce : Bytes) : Act δ ε π (Except Fault Unit) := do
  match ← reseedDrbg seed (some nonce) with
  | .error e => return .error e
  | .ok () =>
    settle
    return .ok ()

omit [EntropySource ε] in
theorem reseed_eq (seed nonce : Bytes) :
    (reseed seed nonce : Act δ ε π (Except Fault Unit)) = (do
      enter
      reseedFrom seed nonce) := rfl

theorem reseedViaSource_eq (nonce : Bytes) :
    (reseedViaSource nonce : Act δ ε π (Except Fault Unit)) = (do
      enter
      match ← collectSeed with
      | .error e => return .error e
      | .ok seed => reseedFrom seed nonce) := rfl

omit [EntropySource ε] in
theorem reseeding_answered {seed nonce : Bytes} {source : ε} {g : Csprng δ ε π}
    (hphase : g.phase ≠ .fatal) (log : List LogLine) :
    Reseeding g
      ⟨(reseedFrom seed nonce { g with entropy := source }).result,
        (reseedFrom seed nonce { g with entropy := source }).state, log⟩ := by
  unfold reseedFrom
  cases hanswer : Drbg.reseed g.drbg seed (some nonce) with
  | mk answer drbg =>
    have hreseed := reseedDrbg_run (g := { g with entropy := source }) hanswer
    rw [Action.bind_ok hreseed]
    cases answer with
    | error e => exact .refused hphase hanswer
    | ok u => exact .done hphase hanswer

omit [EntropySource ε] in
theorem reseeding (seed nonce : Bytes) (g : Csprng δ ε π) : Reseeding g (reseed seed nonce g) := by
  have henter := enter_run g
  rw [reseed_eq]
  split at henter
  · rename_i hphase
    rw [Action.bind_error henter]
    exact .found hphase
  · rename_i hphase
    rw [Action.bind_ok henter]
    exact reseeding_answered hphase _

theorem reseedingViaSource (nonce : Bytes) (g : Csprng δ ε π) :
    Reseeding g (reseedViaSource nonce g) := by
  have henter := enter_run g
  rw [reseedViaSource_eq]
  split at henter
  · rename_i hphase
    rw [Action.bind_error henter]
    exact .found hphase
  · rename_i hphase
    rw [Action.bind_ok henter]
    obtain ⟨source, log, ⟨seed, hcollect, -⟩ | ⟨hcollect, -⟩⟩ := collectSeed_run g
    · simp only [Action.bind_ok hcollect]
      exact reseeding_answered hphase _
    · simp only [Action.bind_ok hcollect]
      exact .dry hphase

end Csprng

end CryptoPrimitives
