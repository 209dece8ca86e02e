import CryptoPrimitives.Proofs.Csprng.Held
import CryptoPrimitives.Replay.Generator
import CryptoPrimitives.Replay.Policy
import CryptoPrimitives.Replay.Script

/-!
# Where the bytes of a manager come from

Over any sequence of locked steps, each byte handed out stands at a place of a block that a call of
the generator made since the last reseed, and no place is handed out twice. A step that was asked
for a reseed hands out only what it made after that reseed, and so do the steps after it.
-/

set_option autoImplicit false

namespace CryptoPrimitives

variable {δ ε π : Type}

inductive Locked
  | pass (wanted : Nat)
  | reseed (seed nonce : Bytes)
  | reseedViaSource (nonce : Bytes)
  deriving DecidableEq, Repr

inductive Built {ε π : Type} [EntropySource ε] : {δ : Type} → [Drbg δ] → Csprng δ ε π → Prop
  | ofDrbg {δ : Type} [Drbg δ] {settings : CsprngSettings} {drbg : δ} {entropy : ε} {policy : π}
      {g : Csprng δ ε π} (h : Csprng.ofDrbg settings drbg entropy policy = .ok g) : Built g
  | create {settings : CsprngSettings} {entropy : ε} {policy : π}
      {seed nonce personalization : Bytes} {g : Csprng Generator ε π}
      (h : (Csprng.create settings entropy policy seed nonce personalization).val = .ok g) : Built g
  | ofEntropySource {settings : CsprngSettings} {entropy : ε} {policy : π}
      {personalization : Bytes} {g : Csprng Generator ε π}
      (h : (Csprng.ofEntropySource settings entropy policy personalization).val.1 = .ok g) : Built g

section

variable [Drbg δ] [EntropySource ε] [Policy π]

namespace Locked

def act : Locked → Csprng.Act δ ε π Bytes
  | .pass wanted => Csprng.pass wanted
  | .reseed seed nonce => do
    let _ ← Csprng.reseed seed nonce
    return []
  | .reseedViaSource nonce => do
    let _ ← Csprng.reseedViaSource nonce
    return []

def watch : Locked → Tracked.Watch δ ε π Bytes
  | .pass wanted => Tracked.pass wanted
  | .reseed seed nonce => do
    let _ ← Tracked.reseed seed nonce
    return []
  | .reseedViaSource nonce => do
    let _ ← Tracked.reseedViaSource nonce
    return []

end Locked

def Locked.bytes (op : Locked) (g : Csprng δ ε π) : Bytes := (op.act g).result.toOption.getD []

def Csprng.run : List Locked → Csprng δ ε π → Bytes × Csprng δ ε π
  | [], g => ([], g)
  | op :: ops, g =>
    let rest := run ops (op.act g).state
    (op.bytes g ++ rest.1, rest.2)

/-- A request is a run of passes, whose bytes are its own if none of them halts. -/
theorem Csprng.passes_run (rounds wanted : Nat) (g : Csprng δ ε π) :
    ∃ ops, (passes rounds wanted g).state = (run ops g).2 ∧
      ∀ bytes, (passes rounds wanted g).result = .ok bytes → (run ops g).1 = bytes := by
  have hnone : ∀ g : Csprng δ ε π, ∃ ops, g = (run ops g).2 ∧
      ∀ bytes, (.ok [] : Except Halt Bytes) = .ok bytes → (run ops g).1 = bytes :=
    fun _ => ⟨[], rfl, fun _ hb => Except.ok.inj hb⟩
  induction rounds generalizing wanted g with
  | zero => exact hnone g
  | succ rounds ih =>
    unfold passes
    by_cases hw : wanted = 0
    · simp only [hw, if_true]
      exact hnone g
    simp only [hw, if_false]
    rcases hstep : pass wanted g with ⟨_ | served, g', log⟩
    · exact ⟨[.pass wanted], by simp [run, Locked.act, hstep], by simp⟩
    obtain ⟨ops, hstate, hbytes⟩ := ih (wanted - served.length) g'
    refine ⟨.pass wanted :: ops, ?_, ?_⟩
    · simp [run, Locked.act, hstep, hstate]
    · intro bytes hb
      simp only at hb
      cases hrest : (passes rounds (wanted - served.length) g').result with
      | error h =>
        rw [hrest] at hb
        cases hb
      | ok rest =>
        rw [hrest] at hb
        cases hb
        have hlater := hbytes rest hrest
        simp [run, Locked.act, Locked.bytes, hstep, hlater, Except.toOption]

namespace Tracked

open History

def start (g : Csprng δ ε π) : Tracked δ ε π := ⟨g, List.replicate g.cache.length none, []⟩

def run (ops : List Locked) (t : Tracked δ ε π) : Tracked δ ε π :=
  ops.foldl (fun t op => (op.watch t).state) t

theorem run_append (ops1 ops2 : List Locked) (t : Tracked δ ε π) :
    run (ops1 ++ ops2) t = run ops2 (run ops1 t) := List.foldl_append

theorem watch_follows (op : Locked) :
    Follows (op.watch (δ := δ) (ε := ε) (π := π)) op.act := by
  cases op with
  | pass wanted => exact pass_follows wanted
  | reseed seed nonce => exact (reseed_follows seed nonce).bind fun _ => follows_pure []
  | reseedViaSource nonce => exact (reseedViaSource_follows nonce).bind fun _ => follows_pure []

theorem watch_meets (first : δ) (h0 : History) (op : Locked) :
    Meets (Held (ε := ε) (π := π) first h0 false) op.watch (Served first h0)
      (Halted first h0) := by
  cases op with
  | pass wanted => exact pass_meets wanted
  | reseed seed nonce =>
    exact (reseed_meets seed nonce).bind fun _ => meets_pure [] fun _ => Held.served
  | reseedViaSource nonce =>
    exact (reseedViaSource_meets nonce).bind fun _ => meets_pure [] fun _ => Held.served

/-! ## One step -/

def StepEvents (es : History) (bytes : Bytes) (phase : CsprngPhase) : Prop :=
  (∃ quiet out, es = quiet ++ handOut out ∧ handouts quiet = [] ∧ pendingFrom false quiet = false ∧
    out.map Prod.fst = bytes) ∨
  (handouts es = [] ∧ bytes = [] ∧ phase = .fatal)

theorem StepEvents.bytes {es : History} {bytes : Bytes} {phase : CsprngPhase}
    (hes : StepEvents es bytes phase) : (handouts es).map Prod.fst = bytes := by
  rcases hes with ⟨quiet, out, rfl, hquiet, -, hout⟩ | ⟨hnone, rfl, -⟩
  · rw [handouts_append, hquiet, handouts_handOut, List.nil_append, hout]
  · rw [hnone, List.map_nil]

theorem step_events {first : δ} (op : Locked) (t : Tracked δ ε π) (ht : t.Tidy first) :
    (op.watch t).state.manager = (op.act t.manager).state ∧ (op.watch t).state.Tidy first ∧
      ∃ es, (op.watch t).state.ledger.history = t.ledger.history ++ es ∧
        StepEvents es (op.bytes t.manager) (op.watch t).state.manager.phase := by
  obtain ⟨hresult, hstate, -⟩ := watch_follows op t
  obtain ⟨hok, herror⟩ := watch_meets first t.ledger.history op t (Held.start ht)
  refine ⟨hstate, ?_⟩
  cases hr : (op.watch t).result with
  | ok bytes =>
    obtain ⟨htidy, es, out, hes, hquiet, hp, hout⟩ := hok bytes hr
    have hbytes : op.bytes t.manager = bytes := by
      rw [Locked.bytes, ← hresult, hr]
      rfl
    rw [hbytes]
    exact ⟨htidy, _, hes, .inl ⟨es, out, rfl, hquiet, hp, hout⟩⟩
  | error h =>
    obtain ⟨htidy, ⟨es, hes, hquiet⟩, hfatal⟩ := herror h hr
    have hbytes : op.bytes t.manager = [] := by
      rw [Locked.bytes, ← hresult, hr]
      rfl
    rw [hbytes]
    exact ⟨htidy, es, hes, .inr ⟨hquiet, rfl, hfatal⟩⟩

/-! ## Runs -/

theorem run_events {first : δ} (ops : List Locked) (t : Tracked δ ε π) (ht : t.Tidy first) :
    (run ops t).manager = (Csprng.run ops t.manager).2 ∧ (run ops t).Tidy first ∧
      ∃ es, (run ops t).ledger.history = t.ledger.history ++ es ∧
        (handouts es).map Prod.fst = (Csprng.run ops t.manager).1 := by
  induction ops generalizing t with
  | nil => exact ⟨rfl, ht, [], (List.append_nil _).symm, rfl⟩
  | cons op ops ih =>
    obtain ⟨hstate, htidy, es, hes, hstep⟩ := step_events op t ht
    obtain ⟨hmanager, hrun, later, hlater, hbytes⟩ := ih _ htidy
    rw [hstate] at hmanager hbytes
    refine ⟨hmanager, hrun, es ++ later, ?_, ?_⟩
    · rw [← List.append_assoc, ← hes]
      exact hlater
    · rw [handouts_append, List.map_append, hstep.bytes, hbytes]
      rfl

/-- A fatal manager hands out nothing more. -/
theorem run_fatal (ops : List Locked) (t : Tracked δ ε π) (hf : t.manager.phase = .fatal) :
    run ops t = t := by
  have henter : unseen Csprng.enter t = ⟨.error .found, t, []⟩ := by
    unfold unseen watch
    rw [Csprng.enter_run, if_pos hf]
  have hstep : ∀ op : Locked, (op.watch t).state = t := by
    intro op
    cases op with
    | pass wanted =>
      change (Action.bind (unseen Csprng.enter) _ t).state = t
      rw [Action.bind, henter]
    | reseed seed nonce =>
      change (Action.bind (Action.bind (unseen Csprng.enter) _) _ t).state = t
      rw [Action.bind, Action.bind, henter]
    | reseedViaSource nonce =>
      change (Action.bind (Action.bind (unseen Csprng.enter) _) _ t).state = t
      rw [Action.bind, Action.bind, henter]
  induction ops with
  | nil => rfl
  | cons op ops ih =>
    change run ops (op.watch t).state = t
    rw [hstep, ih]

/-- From the step with the events `es` on, only what was made after its last reseed is handed out,
and that reseed came after all that asked for one. -/
def RenewedIn (earlier es later : History) : Prop :=
  ∀ b o, .handed b o ∈ es ++ later →
    ∃ es1 es2 o', es = es1 ++ .reseeded :: es2 ∧ (.reseeded ∉ es2 ∧ .due ∉ es2 ∧ .required ∉ es2) ∧
      o = some o' ∧ (blocks (earlier ++ es1)).length ≤ o'.block

theorem handed_mem {h : History} {b : UInt8} {o : Option Origin} :
    .handed b o ∈ h ↔ (b, o) ∈ handouts h := by
  rw [handouts, List.mem_filterMap]
  constructor
  · intro hmem
    exact ⟨_, hmem, rfl⟩
  · rintro ⟨e, hmem, he⟩
    cases e <;> simp_all

theorem renewed {earlier es later : History} {bytes : Bytes} {phase : CsprngPhase}
    (hs : Sound (earlier ++ (es ++ later))) (hes : StepEvents es bytes phase)
    (hfatal : phase = .fatal → later = []) {e : CsprngEvent} (he : e = .due ∨ e = .required)
    (hmem : e ∈ es) : RenewedIn earlier es later := by
  intro b o hb
  rcases hes with ⟨quiet, out, rfl, hquiet, hp, -⟩ | ⟨hnone, -, hphase⟩
  · have hasked : e ∈ quiet := by
      rcases List.mem_append.mp hmem with hq | ho
      · exact hq
      · rcases he with rfl | rfl <;> simp [handOut] at ho
    obtain ⟨es1, es2, rfl, hlast⟩ := answered he hasked hp
    have hnew : CsprngEvent.handed b o ∈ es2 ++ (handOut out ++ later) := by
      rw [handed_mem] at hb ⊢
      rw [List.append_assoc, handouts_append, hquiet, List.nil_append] at hb
      rw [handouts_append]
      exact List.mem_append_right _ hb
    obtain ⟨before, after, hsplit⟩ := List.append_of_mem hnew
    have hwhole : earlier ++ ((es1 ++ .reseeded :: es2) ++ handOut out ++ later) =
        ((earlier ++ es1) ++ .reseeded :: before) ++ .handed b o :: after := by
      have hcongr := congrArg (fun l => earlier ++ (es1 ++ .reseeded :: l)) hsplit
      simpa using hcongr
    obtain ⟨o', rfl, hd⟩ := hs.delivers _ _ b o hwhole
    have hout : ∀ e', (∀ b o, e' ≠ .handed b o) → e' ∉ handOut out := by
      intro e' hne hm
      obtain ⟨m, -, rfl⟩ := List.mem_map.mp hm
      exact hne _ _ rfl
    refine ⟨es1, es2 ++ handOut out, o', by simp, ⟨?_, ?_, ?_⟩, rfl, hd.after_reseed⟩
    · simp [hlast.1, hout]
    · simp [hlast.2.1, hout]
    · simp [hlast.2.2, hout]
  · rw [hfatal hphase, List.append_nil, handed_mem, hnone] at hb
    exact absurd hb List.not_mem_nil

end Tracked

end

/-! ## Managers as they are made -/

theorem ofDrbg_spent [Drbg δ] {settings : CsprngSettings} {drbg : δ} {entropy : ε} {policy : π}
    {g : Csprng δ ε π} (h : Csprng.ofDrbg settings drbg entropy policy = .ok g) :
    g.cursor = g.cache.length := by
  simp only [Csprng.ofDrbg] at h
  split at h
  · cases h
  · cases h
    exact List.length_replicate.symm

theorem create_instantiated {settings : CsprngSettings} {entropy : ε} {policy : π}
    {seed nonce personalization : Bytes} {g : Csprng Generator ε π}
    (h : (Csprng.create settings entropy policy seed nonce personalization).val = .ok g) :
    ∃ drbg, (settings.drbg.instantiate seed nonce personalization).val = .ok drbg ∧
      Csprng.ofDrbg settings drbg entropy policy = .ok g := by
  simp only [Csprng.create, Recorded.val_bind] at h
  split at h
  · cases h
  · rename_i drbg hdrbg
    exact ⟨drbg, hdrbg, h⟩

theorem ofEntropySource_created [EntropySource ε] {settings : CsprngSettings} {entropy : ε}
    {policy : π} {personalization : Bytes} {g : Csprng Generator ε π}
    (h : (Csprng.ofEntropySource settings entropy policy personalization).val.1 = .ok g) :
    ∃ source seed nonce,
      (Csprng.create settings source policy seed nonce personalization).val = .ok g := by
  simp only [Csprng.ofEntropySource, Recorded.val_bind] at h
  split at h
  · cases h
  · exact ⟨_, _, _, h⟩

theorem built_spent [EntropySource ε] [Drbg δ] {g : Csprng δ ε π} (hg : Built g) :
    g.cursor = g.cache.length := by
  cases hg with
  | ofDrbg h => exact ofDrbg_spent h
  | create h =>
    obtain ⟨drbg, -, hmade⟩ := create_instantiated h
    exact ofDrbg_spent hmade
  | ofEntropySource h =>
    obtain ⟨source, seed, nonce, hcreate⟩ := ofEntropySource_created h
    obtain ⟨drbg, -, hmade⟩ := create_instantiated hcreate
    exact ofDrbg_spent hmade

namespace Tracked

open History

theorem start_tidy [EntropySource ε] [Drbg δ] {g : Csprng δ ε π} (hg : Built g) :
    (start g).Tidy g.drbg := by
  have hrem : (start g).remaining = [] := by
    rw [remaining, List.drop_eq_nil_iff, List.length_zip]
    exact Nat.le_trans (Nat.min_le_left _ _) (Nat.le_of_eq (built_spent hg).symm)
  exact ⟨List.length_replicate, by rw [hrem]; exact kept_nil .nil, .nothing⟩

/-- The tracked run hands out the bytes of the run itself. Its blocks are, in order, what the
manager's own generator answered, each in the state that the calls before had left it in. Each byte
stands at its origin in the epoch of that moment, no origin comes twice, and a reseed that a step
was asked for cuts off all that was made before it. -/
theorem handed_bytes_are_fresh [Drbg δ] [EntropySource ε] [Policy π] (g : Csprng δ ε π)
    (hg : Built g) (ops : List Locked) :
    (run ops (start g)).manager = (Csprng.run ops g).2 ∧
      (handouts (run ops (start g)).ledger.history).map Prod.fst = (Csprng.run ops g).1 ∧
      Generated g.drbg (blockBytes (run ops (start g)).ledger.history) (Csprng.run ops g).2.drbg ∧
      (∀ before after b o, (run ops (start g)).ledger.history = before ++ .handed b o :: after →
        ∃ o', o = some o' ∧ Delivers before b o') ∧
      ((handouts (run ops (start g)).ledger.history).map Prod.snd).Nodup ∧
      ∀ ops1 op ops2, ops = ops1 ++ op :: ops2 →
        ∃ es later,
          (run (ops1 ++ [op]) (start g)).ledger.history =
            (run ops1 (start g)).ledger.history ++ es ∧
          (run ops (start g)).ledger.history =
            (run ops1 (start g)).ledger.history ++ (es ++ later) ∧
          (.due ∈ es ∨ .required ∈ es →
            RenewedIn (run ops1 (start g)).ledger.history es later) := by
  obtain ⟨hmanager, htidy, es, hes, hbytes⟩ := run_events ops (start g) (start_tidy hg)
  have hhistory : (run ops (start g)).ledger.history = es := hes
  refine ⟨hmanager, by rw [hhistory]; exact hbytes, hmanager ▸ htidy.genuine,
    htidy.kept.sound.delivers, htidy.kept.sound.origins_nodup, ?_⟩
  rintro ops1 op ops2 rfl
  obtain ⟨-, htidy1, -⟩ := run_events ops1 (start g) (start_tidy hg)
  obtain ⟨-, htidy2, es, hes, hstep⟩ := step_events op _ htidy1
  obtain ⟨-, -, later, hlater, -⟩ := run_events ops2 _ htidy2
  have hone : run (ops1 ++ [op]) (start g) = (op.watch (run ops1 (start g))).state :=
    run_append ops1 [op] _
  have hall : run (ops1 ++ op :: ops2) (start g) =
      run ops2 (op.watch (run ops1 (start g))).state := run_append ops1 (op :: ops2) _
  have hsound := htidy.kept.sound
  rw [hall, hlater, hes, List.append_assoc] at hsound
  refine ⟨es, later, by rw [hone, hes], by rw [hall, hlater, hes, List.append_assoc], ?_⟩
  have hfatal : (op.watch (run ops1 (start g))).state.manager.phase = .fatal → later = [] := by
    intro hf
    rw [run_fatal _ _ hf] at hlater
    exact List.self_eq_append_right.mp hlater
  rintro (hdue | hrequired)
  · exact renewed hsound hstep hfatal (.inl rfl) hdue
  · exact renewed hsound hstep hfatal (.inr rfl) hrequired

open Replay in
/-- The policy asks for a reseed before the second pass, which leaves one cached byte unused. -/
theorem handed_bytes_are_fresh_scripted :
    ∃ g : Csprng ScriptedDrbg Script (Policy.Custom AnswerList), Built g ∧
      (Csprng.run [.pass 3, .pass 3, .pass 9] g).1 =
        [0, 16, 32, 1, 17, 33, 1, 17, 33, 49, 65, 81, 97, 113, 129] ∧
      ((handouts (run [.pass 3, .pass 3, .pass 9] (start g)).ledger.history).map Prod.snd).Nodup ∧
      ∃ es later, .due ∈ es ∧ RenewedIn (run [.pass 3] (start g)).ledger.history es later := by
  let settings : CsprngSettings := { cacheSize := 4, maxRequest := 16, entropyLen := some 2 }
  let drbg : ScriptedDrbg := ⟨0, 16, [], [], []⟩
  let entropy : Script := .ofSteps [⟨.constant 7, none, none, 9⟩]
  let g : Csprng ScriptedDrbg Script (Policy.Custom AnswerList) :=
    { drbg, entropy, policy := answerPolicy [false, true], cache := [0, 0, 0, 0], cursor := 4,
      phase := .seeded, maxRequest := 16, entropyLen := 2, maxRetry := 100 }
  have hmade : Csprng.ofDrbg settings drbg entropy (answerPolicy [false, true]) = .ok g := rfl
  have hbytes : (Csprng.run [.pass 3, .pass 3, .pass 9] g).1 =
      [0, 16, 32, 1, 17, 33, 1, 17, 33, 49, 65, 81, 97, 113, 129] := by decide +kernel
  obtain ⟨-, -, -, -, hnodup, hsteps⟩ :=
    handed_bytes_are_fresh g (.ofDrbg hmade) [.pass 3, .pass 3, .pass 9]
  obtain ⟨es, later, hes, -, hrenewed⟩ := hsteps [.pass 3] (.pass 3) [.pass 9] rfl
  have hdue : .due ∈ es := by
    have hconcrete : (run ([.pass 3] ++ [.pass 3]) (start g)).ledger.history =
        (run [.pass 3] (start g)).ledger.history ++
          [.due, .reseeded, .produced [1, 17, 33, 49], .handed 1 (some ⟨1, 0⟩),
            .handed 17 (some ⟨1, 1⟩), .handed 33 (some ⟨1, 2⟩)] := by
      decide +kernel
    have heq := List.append_cancel_left (hconcrete.symm.trans hes)
    rw [← heq]
    exact List.mem_cons_self
  exact ⟨g, .ofDrbg hmade, hbytes, hnodup, es, later, hdue, hrenewed (.inl hdue)⟩

end Tracked

end CryptoPrimitives
