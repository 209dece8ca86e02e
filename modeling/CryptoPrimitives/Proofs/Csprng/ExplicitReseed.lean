import CryptoPrimitives.Proofs.Csprng.Fatal
import CryptoPrimitives.Proofs.Csprng.Observed
import CryptoPrimitives.Proofs.Drbg.Atomic

/-!
# Explicit reseeds

A reseed that the caller asks for is done whole or not at all. A failed one may have drawn from the
source; nothing else shows that it was tried, and the policy is not told.
-/

set_option autoImplicit false

namespace CryptoPrimitives

variable {δ ε π : Type}

inductive ExplicitReseed
  | given (seed nonce : Bytes)
  | drawn (nonce : Bytes)
  deriving DecidableEq, Repr

namespace ExplicitReseed

open Csprng

def act [Drbg δ] [EntropySource ε] [Policy π] :
    ExplicitReseed → Csprng.Act δ ε π (Except Fault Unit)
  | given seed nonce => Csprng.reseed seed nonce
  | drawn nonce => Csprng.reseedViaSource nonce

def source [EntropySource ε] (op : ExplicitReseed) (g : Csprng δ ε π) : ε :=
  match op with
  | given _ _ => g.entropy
  | drawn _ => (collect g.entropy g.entropyLen g.maxRetry).val.source

section

variable [Drbg δ] [Policy π]

theorem reseedFrom_entropy (seed nonce : Bytes) (g : Csprng δ ε π) :
    (reseedFrom seed nonce g).state.entropy = g.entropy := by
  unfold reseedFrom
  cases hanswer : Drbg.reseed g.drbg seed (some nonce) with
  | mk answer drbg =>
    rw [Action.bind_ok (reseedDrbg_run hanswer)]
    cases answer <;> rfl

variable [EntropySource ε]

theorem act_entropy (op : ExplicitReseed) {g : Csprng δ ε π} (hphase : g.phase ≠ .fatal) :
    (op.act g).state.entropy = op.source g := by
  have henter := enter_run g
  rw [if_neg hphase] at henter
  cases op with
  | given seed nonce =>
    rw [act, reseed_eq, Action.bind_ok henter]
    exact reseedFrom_entropy seed nonce g
  | drawn nonce =>
    rw [act, reseedViaSource_eq, Action.bind_ok henter]
    simp only [Action.bind_ok (collectSeed_eq g)]
    cases (collect g.entropy g.entropyLen g.maxRetry).val.outcome with
    | error e => rfl
    | ok u => exact reseedFrom_entropy _ nonce _

theorem reseeding (op : ExplicitReseed) (g : Csprng δ ε π) : Reseeding g (op.act g) := by
  cases op with
  | given seed nonce => exact Csprng.reseeding seed nonce g
  | drawn nonce => exact reseedingViaSource nonce g

/-! ## What is told -/

/-- The policy is told of a success and of nothing else. -/
theorem act_policy (op : ExplicitReseed) (g : Csprng δ ε π) :
    (op.act g).state.policy =
      if (op.act g).result = .ok (.ok ()) then Policy.completed g.policy else g.policy := by
  have hstep := op.reseeding g
  rcases hact : op.act g with ⟨result, g', log⟩
  rw [hact] at hstep
  cases hstep with
  | found hphase => rfl
  | dry hphase => rfl
  | refused hphase hanswer => rfl
  | done hphase hanswer => rfl

theorem act_observed (op : ExplicitReseed) (g : Csprng δ ε π) :
    (op.act g.observed).result = (op.act g).result := by
  cases op with
  | given seed nonce => exact ((reseed_coupled observed_lawful seed nonce).simulates g.observed).1
  | drawn nonce => exact ((reseedViaSource_coupled observed_lawful nonce).simulates g.observed).1

def told (op : ExplicitReseed) (g : Csprng δ ε π) : Nat := (op.act g.observed).state.policy.told

theorem told_eq (op : ExplicitReseed) (g : Csprng δ ε π) :
    op.told g = if (op.act g).result = .ok (.ok ()) then 1 else 0 := by
  rw [told, act_policy, act_observed]
  split <;> rfl

end

/-! ## Over a built-in generator -/

section

variable [EntropySource ε] [Policy π] {m : Mechanism} {g : Csprng Generator ε π}

inductive Attempted (op : ExplicitReseed) (g : Csprng Generator ε π) : Prop
  | failed (e : Fault) (hresult : (op.act g).result = .ok (.error e))
      (hstate : (op.act g).state = { g with entropy := op.source g })
  | done (drbg : Generator) (hresult : (op.act g).result = .ok (.ok ()))
      (hstate : (op.act g).state = refreshed { g with entropy := op.source g, drbg })

theorem attempted (op : ExplicitReseed) (hg : m.Reaches g.drbg) (hphase : g.phase ≠ .fatal) :
    Attempted op g := by
  have hstep := op.reseeding g
  have hentropy := op.act_entropy hphase
  rcases hact : op.act g with ⟨result, g', log⟩
  rw [hact] at hstep hentropy
  cases hstep with
  | found hfatal => exact absurd hfatal hphase
  | @dry source e _ _ =>
    have hsource : source = op.source g := hentropy
    subst hsource
    exact .failed e (by rw [hact]) (by rw [hact])
  | @refused seed nonce source e drbg _ _ hanswer =>
    have hsource : source = op.source g := hentropy
    subst hsource
    have hkept : (Except.error e, drbg) = (Except.error e, g.drbg) :=
      hanswer.symm.trans (Generator.reseed_unchanged hg (congrArg Prod.fst hanswer))
    cases hkept
    exact .failed e (by rw [hact]) (by rw [hact])
  | @done seed nonce source drbg _ _ hanswer =>
    have hsource : source = op.source g := hentropy
    subst hsource
    exact .done drbg (by rw [hact]) (by rw [hact])

end

end ExplicitReseed

namespace Csprng

inductive OverBuiltIn {ε π : Type} [EntropySource ε] (settings : CsprngSettings) :
    Csprng Generator ε π → Prop
  | ofDrbg {m : Mechanism} {drbg : Generator} {entropy : ε} {policy : π}
      {g : Csprng Generator ε π} (hdrbg : m.Reaches drbg)
      (h : ofDrbg settings drbg entropy policy = .ok g) : OverBuiltIn settings g
  | instantiated {g : Csprng Generator ε π} (h : Instantiated settings g) : OverBuiltIn settings g

variable [EntropySource ε] {settings : CsprngSettings} {g : Csprng Generator ε π}

theorem OverBuiltIn.fresh (hg : OverBuiltIn settings g) :
    (∃ m : Mechanism, m.Reaches g.drbg) ∧ Fresh settings g := by
  cases hg with
  | @ofDrbg m drbg entropy policy _ hdrbg h =>
    obtain ⟨hsame, hfresh⟩ := ofDrbg_fresh h
    exact ⟨⟨m, hsame ▸ hdrbg⟩, hfresh⟩
  | instantiated h =>
    obtain ⟨⟨seed, nonce, personalization, hmade⟩, hfresh⟩ := h.fresh
    exact ⟨⟨settings.drbg, .made ⟨_, _, _, (Mechanism.instantiate_built hmade).1⟩⟩, hfresh⟩

theorem OverBuiltIn.run_reaches [Policy π] (hg : OverBuiltIn settings g) (ops : List Locked) :
    ∃ m : Mechanism, m.Reaches (run ops g).2.drbg := by
  obtain ⟨⟨m, hreaches⟩, hfresh⟩ := hg.fresh
  have hJ : Drbg.Upheld g.maxRequest m.Reaches := Drbg.upheld_of_fills (by
    rintro d ⟨entropy, nonce, personalization, hbuild⟩
    exact (Mechanism.build_fits hbuild).1.fills) _
  have hlive : Live (min settings.cacheSize g.maxRequest) g.maxRequest m.Reaches g :=
    ⟨⟨hreaches, rfl⟩, hfresh.order⟩
  have hended := run_live hJ hfresh.positive (Nat.min_le_right _ _) ops hlive
  exact ⟨m, (hended.elim Live.works Dead.works).upheld⟩

/-- A failed explicit reseed changes nothing but the source, is not told, and makes no difference to
later steps and requests that leave the source unread; a successful one empties the cache and is
told once. Over any steps, the policy is told of just the reseeds that the generator took. -/
theorem explicit_reseeds_are_atomic {ε π : Type} [EntropySource ε] [Policy π]
    (settings : CsprngSettings) (g0 : Csprng Generator ε π) (hg0 : OverBuiltIn settings g0)
    (ops : List Locked) :
    let g := (run ops g0).2
    let recorded := (run ops g0.observed).2
    (recorded.unobserved = g ∧
      recorded.policy.told = Drbg.reseedsTaken recorded.drbg.heard) ∧
    (g.phase ≠ .fatal → ∀ op : ExplicitReseed,
      (∃ e, (op.act g).result = .ok (.error e) ∧
        (op.act g).state = { g with entropy := op.source g } ∧ op.told g = 0 ∧
        ∀ later length, Unconsulted later length g →
          (run later (op.act g).state).1 = (run later g).1 ∧
          (generate length (run later (op.act g).state).2).result =
            (generate length (run later g).2).result ∧
          (generate length (run later (op.act g).state).2).state =
            { (generate length (run later g).2).state with entropy := op.source g }) ∨
      ((op.act g).result = .ok (.ok ()) ∧
        (op.act g).state.cache = Bytes.zeros g.cache.length ∧
        (op.act g).state.cursor = g.cache.length ∧ (op.act g).state.phase = .seeded ∧
        (op.act g).state.policy = Policy.completed g.policy ∧ op.told g = 1)) := by
  obtain ⟨m, hreaches⟩ := hg0.run_reaches ops
  refine ⟨⟨(run_observed ops g0).2, run_tallied ops rfl⟩, fun hphase op => ?_⟩
  rcases op.attempted hreaches hphase with ⟨e, hresult, hstate⟩ | ⟨drbg, hresult, hstate⟩
  · refine .inl ⟨e, hresult, hstate, ?_, fun later length hunread => ?_⟩
    · rw [op.told_eq, hresult]
      rfl
    · rw [hstate]
      exact hunread.swap _
  · refine .inr ⟨hresult, ?_, ?_, ?_, ?_, ?_⟩
    · rw [hstate]
      rfl
    · rw [hstate]
      rfl
    · rw [hstate]
      rfl
    · rw [hstate]
      rfl
    · rw [op.told_eq, hresult]
      rfl

open Replay in
/-- The source has no seed and the given one is a byte too short; the byte that is cached still
comes next. -/
theorem explicit_reseeds_are_atomic_aes128 :
    ∃ g0 : Csprng Generator Script Policy.Never,
      OverBuiltIn { drbg := .ctr .aes128 false false 5, cacheSize := 4, maxReseedRetry := 1 } g0 ∧
      let g := (run [.pass 3] g0).2
      ((ExplicitReseed.given (Bytes.zeros 31) [1]).act g).state = g ∧
      (ExplicitReseed.given (Bytes.zeros 32) [1]).told g = 1 ∧
      (ExplicitReseed.drawn [1]).told g = 0 ∧
      ((ExplicitReseed.drawn [1]).act g).state.entropy.asked = [32] ∧
      (run [.pass 1] ((ExplicitReseed.drawn [1]).act g).state).1 = (run [.pass 1] g).1 ∧
      (generate 9 (run [.pass 1] ((ExplicitReseed.drawn [1]).act g).state).2).result =
        (generate 9 (run [.pass 1] g).2).result := by
  have hmade : (create { drbg := .ctr .aes128 false false 5, cacheSize := 4, maxReseedRetry := 1 }
      (Script.ofSteps []) (⟨⟩ : Policy.Never) (Bytes.zeros 32) [] []).val = .ok _ := rfl
  have hbuilt := OverBuiltIn.instantiated (.create hmade)
  obtain ⟨-, hatomic⟩ := explicit_reseeds_are_atomic _ _ hbuilt [.pass 3]
  have hreseeds := hatomic (by decide +kernel)
  refine ⟨_, hbuilt, ?short, ?taken, ?drawn⟩
  case short =>
    rcases hreseeds (.given (Bytes.zeros 31) [1]) with ⟨e, -, hstate, -⟩ | ⟨hok, -⟩
    · exact hstate
    · exact absurd hok (by decide +kernel)
  case taken =>
    rcases hreseeds (.given (Bytes.zeros 32) [1]) with ⟨e, herror, -⟩ | ⟨-, -, -, -, -, htold⟩
    · rw [show ((ExplicitReseed.given (Bytes.zeros 32) [1]).act (run [.pass 3] _).2).result =
        .ok (.ok ()) by decide +kernel] at herror
      cases herror
    · exact htold
  case drawn =>
    rcases hreseeds (.drawn [1]) with ⟨e, -, hstate, htold, hlater⟩ | ⟨hok, -⟩
    · obtain ⟨hbytes, hresult, -⟩ := hlater [.pass 1] 9 (by unfold Unconsulted; decide +kernel)
      refine ⟨htold, ?_, hbytes, hresult⟩
      rw [hstate]
      decide +kernel
    · exact absurd hok (by decide +kernel)

end Csprng

end CryptoPrimitives
