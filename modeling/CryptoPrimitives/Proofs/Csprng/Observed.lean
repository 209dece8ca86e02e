import CryptoPrimitives.Proofs.Csprng.InOrder

/-!
# Managers under observation

The generator keeps its calls with their answers, the source counts its reads and the policy keeps
what it asks for and what it is told. The policy is told of just those reseeds that the generator
took. As long as nothing is read, another source in the place of this one would change nothing.
-/

set_option autoImplicit false

namespace CryptoPrimitives

structure Metered (ε : Type) where
  source : ε
  reads : Nat

instance {ε : Type} [EntropySource ε] : EntropySource (Metered ε) where
  read s buffer := do
    let (delivery, source) ← EntropySource.read s.source buffer
    return (delivery, ⟨source, s.reads + 1⟩)

theorem Metered.matched {ε : Type} [EntropySource ε] :
    EntropySource.Matched (fun (s : Metered ε) s' => s.source = s') fun _ => False where
  read := by
    rintro s s' buffer rfl
    exact .inr ⟨rfl, rfl, List.append_nil _⟩
  stays := fun _ => id

/-- Against any other source, a first read ends the comparison. -/
theorem Metered.matched_unread {ε : Type} [EntropySource ε] (source : ε) :
    EntropySource.Matched (fun (s : Metered ε) s' => s.reads = 0 ∧ s' = source) (0 < ·.reads) where
  read := fun {s _} _ _ => .inl (Nat.succ_pos s.reads)
  stays := fun {s} _ _ => Nat.succ_pos s.reads

inductive Beat
  | asked
  | reseeded
  | served
  deriving DecidableEq, Repr

structure Notified (π : Type) where
  policy : π
  entries : List Beat

instance {π : Type} [Policy π] : Policy (Notified π) where
  due p :=
    let (due, policy) := Policy.due p.policy
    (due, ⟨policy, if due then p.entries ++ [.asked] else p.entries⟩)
  completed p := ⟨Policy.completed p.policy, p.entries ++ [.reseeded]⟩

namespace Notified

variable {π : Type} [Policy π]

def told (p : Notified π) : Nat := p.entries.count .reseeded

theorem told_due (p : Notified π) : (Policy.due p).2.told = p.told := by
  unfold told Policy.due instPolicyNotified
  dsimp only
  split
  · exact List.count_append.trans (Nat.add_zero _)
  · rfl

theorem told_completed (p : Notified π) : (Policy.completed p).told = p.told + 1 :=
  List.count_append

theorem matched : Policy.Matched fun (p : Notified π) p' => p.policy = p' where
  due := by
    rintro p p' rfl
    exact ⟨rfl, rfl⟩
  completed := by
    rintro p p' rfl
    rfl

end Notified

def Drbg.reseedsTaken (heard : Transcript) : Nat :=
  heard.countP fun
    | (.reseed _ _, .ok _) => true
    | _ => false

namespace Overheard

variable {δ : Type} [Drbg δ] {d d' : Overheard δ}

theorem reseedsTaken_generate {length : Nat} {additional : Option Bytes}
    {answer : Except Fault Bytes} (h : Drbg.generate d length additional = (answer, d')) :
    Drbg.reseedsTaken d'.heard = Drbg.reseedsTaken d.heard := by
  rw [(generate_run h).2, Drbg.reseedsTaken, List.countP_append]
  rfl

theorem reseedsTaken_refused {seed : Bytes} {additional : Option Bytes} {e : Fault}
    (h : Drbg.reseed d seed additional = (.error e, d')) :
    Drbg.reseedsTaken d'.heard = Drbg.reseedsTaken d.heard := by
  rw [(reseed_run h).2, Drbg.reseedsTaken, List.countP_append]
  rfl

theorem reseedsTaken_taken {seed : Bytes} {additional : Option Bytes}
    (h : Drbg.reseed d seed additional = (.ok (), d')) :
    Drbg.reseedsTaken d'.heard = Drbg.reseedsTaken d.heard + 1 := by
  rw [(reseed_run h).2, Drbg.reseedsTaken, List.countP_append]
  rfl

end Overheard

abbrev Observed (δ ε π : Type) := Csprng (Overheard δ) (Metered ε) (Notified π)

namespace Csprng

open CryptoPrimitives.Action

variable {δ ε π : Type}

def observed (g : Csprng δ ε π) : Observed δ ε π :=
  { g with drbg := ⟨g.drbg, []⟩, entropy := ⟨g.entropy, 0⟩, policy := ⟨g.policy, []⟩ }

def unobserved (g : Observed δ ε π) : Csprng δ ε π :=
  image Overheard.drbg Metered.source Notified.policy g

section

variable [Drbg δ] [EntropySource ε] [Policy π]

/-! ## Observing changes nothing -/

theorem observed_lawful :
    (Ties.images Overheard.drbg Metered.source Notified.policy :
      Ties (Overheard δ) δ (Metered ε) ε (Notified π) π).Lawful :=
  ⟨Overheard.matched, Metered.matched, Notified.matched⟩

theorem run_observed (ops : List Locked) (g : Csprng δ ε π) :
    (run ops g.observed).1 = (run ops g).1 ∧ (run ops g.observed).2.unobserved = (run ops g).2 :=
  run_image observed_lawful ops g.observed

/-! ## An unread source does not matter -/

def unread (source : ε) : Ties (Overheard δ) δ (Metered ε) ε (Notified π) π where
  drbg d d' := d.drbg = d'
  entropy s s' := s.reads = 0 ∧ s' = source
  policy p p' := p.policy = p'
  escaped s := 0 < s.reads

theorem unread_lawful (source : ε) : (unread source : Ties _ δ _ ε _ π).Lawful :=
  ⟨Overheard.matched, Metered.matched_unread source, Notified.matched⟩

omit [Drbg δ] [EntropySource ε] [Policy π] in
theorem Related.unread_eq {source : ε} {g : Observed δ ε π} {g' : Csprng δ ε π}
    (h : Related (unread source) g g') : g' = { g.unobserved with entropy := source } :=
  h.eq_with h.drbg.symm h.entropy.2 h.policy.symm

def Unconsulted (ops : List Locked) (length : Nat) (g : Csprng δ ε π) : Prop :=
  (generate length (run ops g.observed).2).state.entropy.reads = 0

theorem Unconsulted.alike {ops : List Locked} {length : Nat} {g : Csprng δ ε π}
    (h : Unconsulted ops length g) (source : ε) :
    (run ops { g with entropy := source }).1 = (run ops g.observed).1 ∧
      (generate length (run ops { g with entropy := source }).2).result =
        (generate length (run ops g.observed).2).result ∧
      (generate length (run ops { g with entropy := source }).2).state =
        { (generate length (run ops g.observed).2).state.unobserved with entropy := source } := by
  have hstart : Related (unread source) g.observed { g with entropy := source } :=
    ⟨rfl, ⟨rfl, rfl⟩, rfl, rfl⟩
  have hrun := (run_coupled (unread_lawful source) ops _ _).2 hstart
  have hlater := generate_coupled (unread_lawful (δ := δ) (π := π) source) length
  rcases hrun with hread | ⟨hbytes, hstate⟩
  · have hread := hlater.stays _ g hread
    exact absurd h (Nat.ne_of_gt hread)
  · rcases hlater.ends _ _ hstate with hread | ⟨hresult, hafter, -⟩
    · exact absurd h (Nat.ne_of_gt hread)
    · exact ⟨hbytes.symm, hresult.symm, hafter.unread_eq⟩

/-- Whatever stands in for a source that is not read, the bytes, the results and all else that is
left are the same. -/
theorem Unconsulted.swap {ops : List Locked} {length : Nat} {g : Csprng δ ε π}
    (h : Unconsulted ops length g) (source : ε) :
    (run ops { g with entropy := source }).1 = (run ops g).1 ∧
      (generate length (run ops { g with entropy := source }).2).result =
        (generate length (run ops g).2).result ∧
      (generate length (run ops { g with entropy := source }).2).state =
        { (generate length (run ops g).2).state with entropy := source } := by
  obtain ⟨hbytes, hresult, hstate⟩ := h.alike source
  obtain ⟨hbytes', hresult', hstate'⟩ := h.alike g.entropy
  refine ⟨hbytes.trans hbytes'.symm, hresult.trans hresult'.symm, ?_⟩
  rw [hstate, hstate']

/-! ## What the policy is told -/

def Tallied (g : Observed δ ε π) : Prop := g.policy.told = Drbg.reseedsTaken g.drbg.heard

variable {g g' : Observed δ ε π} {log : List LogLine}

theorem Refreshing.tallied {result : Except Halt Unit} (h : Refreshing g ⟨result, g', log⟩)
    (hg : Tallied g) : Tallied g' := by
  cases h with
  | dry hdry => exact hg
  | refused hseed hanswer => exact hg.trans (Overheard.reseedsTaken_refused hanswer).symm
  | done hseed hanswer =>
    exact (g.policy.told_completed.trans (congrArg (· + 1) hg)).trans
      (Overheard.reseedsTaken_taken hanswer).symm

theorem Renewing.tallied {result : Except Halt Unit} (h : Renewing g ⟨result, g', log⟩)
    (hg : Tallied g) : Tallied g' := by
  have hasked : ∀ {due : Bool} {policy : Notified π}, Policy.due g.policy = (due, policy) →
      policy.told = Drbg.reseedsTaken g.drbg.heard := by
    intro due policy hdue
    have htold := g.policy.told_due
    rw [hdue] at htold
    exact htold.trans hg
  cases h with
  | pending hphase hstep => exact hstep.tallied hg
  | idle hphase hdue => exact hasked hdue
  | asked hphase hdue hstep => exact hstep.tallied (hasked hdue)

theorem Drawing.tallied {length : Nat} {result : Except Halt Bytes}
    (h : Drawing length g ⟨result, g', log⟩) (hg : Tallied g) : Tallied g' := by
  have hcalled : ∀ {answer : Except Fault Bytes} {drbg : Overheard δ},
      Drbg.generate g.drbg length none = (answer, drbg) →
        g.policy.told = Drbg.reseedsTaken drbg.heard :=
    fun hanswer => hg.trans (Overheard.reseedsTaken_generate hanswer).symm
  cases h with
  | served hanswer => exact hcalled hanswer
  | failed he hanswer =>
    have htold := hcalled hanswer
    exact htold
  | halted hanswer hstep => exact hstep.tallied (hcalled hanswer)
  | retried hanswer hstep hagain =>
    exact (hstep.tallied (hcalled hanswer)).trans (Overheard.reseedsTaken_generate hagain).symm
  | failedAgain hanswer hstep hagain =>
    exact (hstep.tallied (hcalled hanswer)).trans (Overheard.reseedsTaken_generate hagain).symm

theorem Refilling.tallied {result : Except Halt Unit} (h : Refilling g ⟨result, g', log⟩)
    (hg : Tallied g) : Tallied g' := by
  cases h with
  | done hstep => exact hstep.tallied hg
  | halted hstep => exact hstep.tallied hg

theorem Serving.tallied {wanted : Nat} {result : Except Halt Bytes}
    (h : Serving wanted g ⟨result, g', log⟩) (hg : Tallied g) : Tallied g' := by
  cases h with
  | cached hheld => exact hg
  | refilled hmiss hroom hstep => exact hstep.tallied hg
  | halted hmiss hroom hstep => exact hstep.tallied hg
  | streamed hmiss hlong hstep => exact hstep.tallied hg

theorem Passing.tallied {wanted : Nat} {result : Except Halt Bytes}
    (h : Passing wanted g ⟨result, g', log⟩) (hg : Tallied g) : Tallied g' := by
  cases h with
  | found hphase => exact hg
  | halted hphase hrun => exact (renewing_run hrun).tallied hg
  | served hphase hrun hstep => exact hstep.tallied ((renewing_run hrun).tallied hg)

omit [EntropySource ε] in
theorem Reseeding.tallied {result : Except Halt (Except Fault Unit)}
    (h : Reseeding g ⟨result, g', log⟩) (hg : Tallied g) : Tallied g' := by
  cases h with
  | found hphase => exact hg
  | dry hphase => exact hg
  | refused hphase hanswer => exact hg.trans (Overheard.reseedsTaken_refused hanswer).symm
  | done hphase hanswer =>
    exact (g.policy.told_completed.trans (congrArg (· + 1) hg)).trans
      (Overheard.reseedsTaken_taken hanswer).symm

theorem act_tallied (op : Locked) (hg : Tallied g) : Tallied (op.act g).state := by
  cases op with
  | pass wanted => exact (passing wanted g).tallied hg
  | reseed seed nonce =>
    rw [Locked.act, act_discards]
    exact (reseeding seed nonce g).tallied hg
  | reseedViaSource nonce =>
    rw [Locked.act, act_discards]
    exact (reseedingViaSource nonce g).tallied hg

/-- Over any steps the policy is told once of each reseed that is taken, and of nothing else. -/
theorem run_tallied (ops : List Locked) (hg : Tallied g) : Tallied (run ops g).2 := by
  induction ops generalizing g with
  | nil => exact hg
  | cons op ops ih => exact ih (act_tallied op hg)

end

end Csprng

end CryptoPrimitives
