import CryptoPrimitives.Proofs.Csprng.Provenance
import CryptoPrimitives.Proofs.Csprng.Steps

/-!
# Managers over related parts

Two managers whose generators, sources and policies answer alike do alike, whatever is asked of
them. The sources may do so only up to a point: a source that has escaped is no longer compared.
-/

set_option autoImplicit false

namespace CryptoPrimitives

structure Ties (δ δ' ε ε' π π' : Type) where
  drbg : δ → δ' → Prop
  entropy : ε → ε' → Prop
  policy : π → π' → Prop
  escaped : ε → Prop

variable {δ δ' ε ε' π π' : Type}

structure Drbg.Matched [Drbg δ] [Drbg δ'] (r : δ → δ' → Prop) : Prop where
  reseed : ∀ {d d'} (seed : Bytes) (additional : Option Bytes), r d d' →
    (Drbg.reseed d seed additional).1 = (Drbg.reseed d' seed additional).1 ∧
      r (Drbg.reseed d seed additional).2 (Drbg.reseed d' seed additional).2
  generate : ∀ {d d'} (length : Nat), r d d' →
    (Drbg.generate d length none).1 = (Drbg.generate d' length none).1 ∧
      r (Drbg.generate d length none).2 (Drbg.generate d' length none).2
  done : ∀ {d d'}, r d d' → r (Drbg.done d) (Drbg.done d')

structure EntropySource.Matched [EntropySource ε] [EntropySource ε'] (r : ε → ε' → Prop)
    (escaped : ε → Prop) : Prop where
  read : ∀ {s s'} (buffer : Bytes), r s s' →
    escaped (EntropySource.read s buffer).val.2 ∨
      ((EntropySource.read s buffer).val.1 = (EntropySource.read s' buffer).val.1 ∧
        r (EntropySource.read s buffer).val.2 (EntropySource.read s' buffer).val.2 ∧
        (EntropySource.read s buffer).entries = (EntropySource.read s' buffer).entries)
  stays : ∀ {s} (buffer : Bytes), escaped s → escaped (EntropySource.read s buffer).val.2

structure Policy.Matched [Policy π] [Policy π'] (r : π → π' → Prop) : Prop where
  due : ∀ {p p'}, r p p' →
    (Policy.due p).1 = (Policy.due p').1 ∧ r (Policy.due p).2 (Policy.due p').2
  completed : ∀ {p p'}, r p p' → r (Policy.completed p) (Policy.completed p')

structure Ties.Lawful [Drbg δ] [Drbg δ'] [EntropySource ε] [EntropySource ε'] [Policy π]
    [Policy π'] (r : Ties δ δ' ε ε' π π') : Prop where
  drbg : Drbg.Matched r.drbg
  entropy : EntropySource.Matched r.entropy r.escaped
  policy : Policy.Matched r.policy

/-! ## Collections -/

namespace Collection

def next [EntropySource ε] (maxRetry reads failures : Nat) (filled rest : Bytes)
    (delivery : Delivery) (source : ε) : Recorded LogLine (Collected ε) :=
  match delivery.outcome with
  | .ok (n + 1) =>
    loop maxRetry reads failures (filled ++ (delivery.buffer rest).take (n + 1))
      ((delivery.buffer rest).drop (n + 1)) source
  | outcome => do
    Recorded.note ⟨.warn, attemptText failures maxRetry (complaint outcome)⟩
    if maxRetry ≤ failures + 1 then
      return ⟨.error .entropySourceFailure,
        Bytes.zeros (filled.length + (delivery.buffer rest).length), source⟩
    loop maxRetry reads (failures + 1) filled (delivery.buffer rest) source

theorem loop_succ [EntropySource ε] (maxRetry reads failures : Nat) (filled rest : Bytes)
    (source : ε) :
    loop maxRetry (reads + 1) failures filled rest source =
      if rest.isEmpty then pure ⟨.ok (), filled, source⟩
      else EntropySource.read source rest >>= fun r =>
        next maxRetry reads failures filled rest r.1 r.2 := rfl

section

variable [EntropySource ε] [EntropySource ε'] {r : ε → ε' → Prop} {escaped : ε → Prop}

def Alike (r : ε → ε' → Prop) (escaped : ε → Prop) (c : Recorded LogLine (Collected ε))
    (c' : Recorded LogLine (Collected ε')) : Prop :=
  escaped c.val.source ∨
    (c.val.outcome = c'.val.outcome ∧ c.val.buffer = c'.val.buffer ∧
      r c.val.source c'.val.source ∧ c.entries = c'.entries)

omit [EntropySource ε'] in
theorem next_escaped {maxRetry reads : Nat}
    (hloop : ∀ failures filled rest (source : ε), escaped source →
      escaped (loop maxRetry reads failures filled rest source).val.source)
    (failures : Nat) (filled rest : Bytes) (delivery : Delivery) {source : ε}
    (h : escaped source) :
    escaped (next maxRetry reads failures filled rest delivery source).val.source := by
  unfold next
  split
  · exact hloop _ _ _ _ h
  · simp only [Recorded.val_bind]
    split
    · exact h
    · exact hloop _ _ _ _ h

theorem next_alike {maxRetry reads : Nat}
    (hloop : ∀ failures filled rest (source : ε) (source' : ε'), r source source' →
      Alike r escaped (loop maxRetry reads failures filled rest source)
        (loop maxRetry reads failures filled rest source'))
    (failures : Nat) (filled rest : Bytes) (delivery : Delivery) {source : ε} {source' : ε'}
    (h : r source source') :
    Alike r escaped (next maxRetry reads failures filled rest delivery source)
      (next maxRetry reads failures filled rest delivery source') := by
  unfold next
  split
  · exact hloop _ _ _ _ _ h
  split
  · exact .inr ⟨rfl, rfl, h, rfl⟩
  · exact (hloop _ _ _ _ _ h).imp id fun ⟨houtcome, hbuffer, hsource, hentries⟩ =>
      ⟨houtcome, hbuffer, hsource, congrArg (_ :: ·) hentries⟩

theorem loop_escaped (hr : EntropySource.Matched r escaped) (maxRetry reads failures : Nat)
    (filled rest : Bytes) (source : ε) (h : escaped source) :
    escaped (loop maxRetry reads failures filled rest source).val.source := by
  induction reads generalizing failures filled rest source with
  | zero => exact h
  | succ reads ih =>
    rw [loop_succ]
    split
    · exact h
    · exact next_escaped ih _ _ _ _ (hr.stays rest h)

theorem loop_alike (hr : EntropySource.Matched r escaped) (maxRetry reads failures : Nat)
    (filled rest : Bytes) (source : ε) (source' : ε') (h : r source source') :
    Alike r escaped (loop maxRetry reads failures filled rest source)
      (loop maxRetry reads failures filled rest source') := by
  induction reads generalizing failures filled rest source source' with
  | zero => exact .inr ⟨rfl, rfl, h, rfl⟩
  | succ reads ih =>
    rw [loop_succ, loop_succ]
    split
    · exact .inr ⟨rfl, rfl, h, rfl⟩
    rcases hr.read rest h with hescaped | ⟨hdelivery, hsource, hread⟩
    · exact .inl (next_escaped (loop_escaped hr maxRetry reads) _ _ _ _ hescaped)
    have hnext := next_alike ih failures filled rest (EntropySource.read source rest).val.1 hsource
    simp only [Alike, Recorded.val_bind, Recorded.entries_bind, ← hdelivery, ← hread]
    exact hnext.imp id fun ⟨houtcome, hbuffer, hsource, hentries⟩ =>
      ⟨houtcome, hbuffer, hsource, congrArg (_ ++ ·) hentries⟩

end

end Collection

/-! ## Managers -/

namespace Csprng

open CryptoPrimitives.Action

def rest (g : Csprng δ ε π) : Csprng Unit Unit Unit :=
  { g with drbg := (), entropy := (), policy := () }

structure Related (r : Ties δ δ' ε ε' π π') (g : Csprng δ ε π) (g' : Csprng δ' ε' π') : Prop where
  drbg : r.drbg g.drbg g'.drbg
  entropy : r.entropy g.entropy g'.entropy
  policy : r.policy g.policy g'.policy
  rest : g.rest = g'.rest

/-- What a manager does not share with its partner are the parts. -/
theorem Related.eq_with {r : Ties δ δ' ε ε' π π'} {g : Csprng δ ε π} {g' : Csprng δ' ε' π'}
    (hg : Related r g g') {drbg : δ'} {entropy : ε'} {policy : π'} (hdrbg : g'.drbg = drbg)
    (hentropy : g'.entropy = entropy) (hpolicy : g'.policy = policy) :
    g' = { g with drbg, entropy, policy } := by
  have hrest := hg.rest
  cases g
  cases g'
  cases hdrbg
  cases hentropy
  cases hpolicy
  cases hrest
  rfl

/-- A request is a pass and a request for what is left. -/
theorem passes_succ [Drbg δ] [EntropySource ε] [Policy π] {wanted : Nat} (h : wanted ≠ 0)
    (rounds : Nat) :
    (passes (rounds + 1) wanted : Act δ ε π Bytes) = (do
      let bytes ← pass wanted
      let rest ← passes rounds (wanted - bytes.length)
      return bytes ++ rest) := by
  funext g
  conv_lhs => unfold passes
  simp only [if_neg h]
  rcases hpass : pass wanted g with ⟨_ | bytes, g', log⟩
  · rw [Action.bind_error hpass]
  · rw [Action.bind_ok hpass]
    rcases hrest : passes rounds (wanted - bytes.length) g' with ⟨_ | later, g'', log'⟩
    · rw [Action.bind_error hrest]
      simp only [hrest, Except.map]
    · rw [Action.bind_ok hrest]
      simp [hrest, pure, Except.map]

abbrev Coupled {α : Type} (r : Ties δ δ' ε ε' π π') (y : Act δ ε π α) (x : Act δ' ε' π' α) : Prop :=
  Action.Coupled (Related r) (fun g => r.escaped g.entropy) y x

variable {r : Ties δ δ' ε ε' π π'}

theorem coupled_rest {α : Type} {k : Csprng δ ε π → Act δ ε π α}
    {f : Csprng δ' ε' π' → Act δ' ε' π' α}
    (hf : ∀ g g', g.rest = g'.rest → Coupled r (k g) (f g')) :
    Coupled r (Action.get >>= k) (Action.get >>= f) :=
  coupled_get
    (fun g t => ⟨{ g with drbg := t.drbg, entropy := t.entropy, policy := t.policy }, rfl⟩)
    (fun _ _ h => h.rest) hf

theorem enter_coupled : Coupled r enter enter := by
  apply coupled_rest
  intro g g' h
  have hphase : g.phase = g'.phase := congrArg Csprng.phase h
  rw [hphase]
  split
  · exact coupled_halt _
  · exact coupled_pure _

theorem drain_coupled (length : Nat) : Coupled r (drain length) (drain length) := by
  refine coupled_query (fun _ hE => hE) fun g g' h => ⟨?_, h.drbg, h.entropy, h.policy, ?_⟩
  · exact congrArg (fun g => (g.cache.drop g.cursor).take length) h.rest
  · exact congrArg (fun g => { g with
      cache := g.cache.take g.cursor ++ Bytes.zeros length ++ (g.cache.drop g.cursor).drop length
      cursor := g.cursor + length }) h.rest

theorem awaitReseed_coupled :
    Coupled r (Action.modify ({ · with phase := .reseedDue }))
      (Action.modify ({ · with phase := .reseedDue })) :=
  coupled_modify (fun _ hE => hE) fun _ _ h =>
    ⟨h.drbg, h.entropy, h.policy, congrArg ({ · with phase := .reseedDue }) h.rest⟩

section

variable [Drbg δ] [Drbg δ'] [EntropySource ε] [EntropySource ε'] [Policy π] [Policy π']
  (hr : r.Lawful)

include hr

theorem fatal_coupled {α : Type} (e : Fault) :
    Coupled r (fatal (α := α) e) (fatal e) := by
  apply (coupled_note _ _).bind
  intro _
  refine Coupled.bind (coupled_modify (fun _ hE => hE) fun _ _ h => ?_) fun _ => coupled_halt _
  exact ⟨hr.drbg.done h.drbg, h.entropy, h.policy, congrArg (fun g => { g with
    phase := .fatal, cache := Bytes.zeros g.cache.length, cursor := g.cache.length }) h.rest⟩

theorem settle_coupled : Coupled r settle settle := by
  refine Coupled.bind (coupled_modify (fun _ hE => hE) fun _ _ h => ?_) fun _ => coupled_note _ _
  exact ⟨h.drbg, h.entropy, hr.policy.completed h.policy, congrArg (fun g => { g with
    cache := Bytes.zeros g.cache.length, cursor := g.cache.length, phase := .seeded }) h.rest⟩

theorem reseedDrbg_coupled (seed : Bytes) (additional : Option Bytes) :
    Coupled r (reseedDrbg seed additional) (reseedDrbg seed additional) := by
  refine coupled_query (fun _ hE => hE) fun _ _ h => ?_
  obtain ⟨hanswer, hdrbg⟩ := hr.drbg.reseed seed additional h.drbg
  exact ⟨hanswer, hdrbg, h.entropy, h.policy, h.rest⟩

theorem callDrbg_coupled (length : Nat) : Coupled r (callDrbg length) (callDrbg length) := by
  refine coupled_query (fun _ hE => hE) fun _ _ h => ?_
  obtain ⟨hanswer, hdrbg⟩ := hr.drbg.generate length h.drbg
  exact ⟨hanswer, hdrbg, h.entropy, h.policy, h.rest⟩

theorem askPolicy_coupled : Coupled r askPolicy askPolicy := by
  refine coupled_query (fun _ hE => hE) fun _ _ h => ?_
  obtain ⟨hdue, hpolicy⟩ := hr.policy.due h.policy
  exact ⟨hdue, h.drbg, h.entropy, hpolicy, h.rest⟩

theorem collectSeed_coupled : Coupled r collectSeed collectSeed where
  stays := fun g _ hE => Collection.loop_escaped hr.entropy _ _ _ _ _ g.entropy hE
  ends := by
    intro g g' h
    have hlen : g.entropyLen = g'.entropyLen := congrArg Csprng.entropyLen h.rest
    have hretry : g.maxRetry = g'.maxRetry := congrArg Csprng.maxRetry h.rest
    have hcollect : Collection.Alike r.entropy r.escaped (collect g.entropy g.entropyLen g.maxRetry)
        (collect g'.entropy g'.entropyLen g'.maxRetry) := by
      rw [hlen, hretry]
      exact Collection.loop_alike hr.entropy _ _ _ _ _ _ _ h.entropy
    refine hcollect.imp id fun ⟨houtcome, hbuffer, hsource, hentries⟩ => ?_
    rw [collectSeed_eq, collectSeed_eq, houtcome, hbuffer, hentries]
    exact ⟨rfl, ⟨h.drbg, hsource, h.policy, h.rest⟩, rfl⟩

theorem reseedFrom_coupled (seed nonce : Bytes) :
    Coupled r (reseedFrom seed nonce) (reseedFrom seed nonce) := by
  apply (reseedDrbg_coupled hr _ _).bind
  intro answer
  cases answer with
  | error e => exact coupled_pure _
  | ok u => exact (settle_coupled hr).bind fun _ => coupled_pure _

theorem reseed_coupled (seed nonce : Bytes) :
    Coupled r (reseed seed nonce) (reseed seed nonce) :=
  enter_coupled.bind fun _ => reseedFrom_coupled hr seed nonce

theorem reseedViaSource_coupled (nonce : Bytes) :
    Coupled r (reseedViaSource nonce) (reseedViaSource nonce) := by
  apply enter_coupled.bind
  intro _
  apply (collectSeed_coupled hr).bind
  intro seed
  cases seed with
  | error e => exact coupled_pure _
  | ok seed => exact reseedFrom_coupled hr seed nonce

theorem refresh_coupled : Coupled r refresh refresh := by
  apply (collectSeed_coupled hr).bind
  intro seed
  cases seed with
  | error e => exact fatal_coupled hr e
  | ok seed =>
    apply (reseedDrbg_coupled hr _ _).bind
    intro answer
    cases answer with
    | error e => exact fatal_coupled hr e
    | ok u => exact settle_coupled hr

theorem renew_coupled (due : Bool) :
    Coupled r (if due then do Action.modify ({ · with phase := .reseedDue }); refresh else pure ())
      (if due then do Action.modify ({ · with phase := .reseedDue }); refresh else pure ()) := by
  cases due with
  | false => exact coupled_pure ()
  | true => exact awaitReseed_coupled.bind fun _ => refresh_coupled hr

theorem refreshIfDue_coupled : Coupled r refreshIfDue refreshIfDue := by
  apply coupled_rest
  intro g g' h
  have hphase : g.phase = g'.phase := congrArg Csprng.phase h
  rw [hphase]
  dsimp only
  split
  · exact (coupled_pure true).bind (renew_coupled hr)
  · exact (askPolicy_coupled hr).bind (renew_coupled hr)

theorem draw_coupled (length : Nat) : Coupled r (draw length) (draw length) := by
  apply (callDrbg_coupled hr _).bind
  intro answer
  rcases answer with e | bytes
  · cases e with
    | drbgReseedRequired =>
      apply awaitReseed_coupled.bind
      intro _
      apply (refresh_coupled hr).bind
      intro _
      apply (callDrbg_coupled hr _).bind
      intro again
      cases again with
      | ok bytes => exact coupled_pure _
      | error e => exact fatal_coupled hr e
    | _ => exact fatal_coupled hr _
  · exact coupled_pure _

theorem refill_coupled : Coupled r refill refill := by
  apply coupled_rest
  intro g g' h
  have hcache : g.cache = g'.cache := congrArg Csprng.cache h
  rw [hcache]
  refine Coupled.bind (coupled_modify (fun _ hE => hE) fun _ _ h => ?_) fun _ => ?_
  · exact ⟨h.drbg, h.entropy, h.policy, congrArg ({ · with cache := [] }) h.rest⟩
  apply (draw_coupled hr _).bind
  intro bytes
  refine Coupled.bind (coupled_modify (fun _ hE => hE) fun _ _ h => ?_) fun _ => coupled_note _ _
  exact ⟨h.drbg, h.entropy, h.policy, congrArg ({ · with cache := bytes, cursor := 0 }) h.rest⟩

theorem serve_coupled (wanted : Nat) : Coupled r (serve wanted) (serve wanted) := by
  apply coupled_rest
  intro g g' h
  have hcache : g.cache = g'.cache := congrArg Csprng.cache h
  have hcursor : g.cursor = g'.cursor := congrArg Csprng.cursor h
  have hlimit : g.maxRequest = g'.maxRequest := congrArg Csprng.maxRequest h
  rw [hcache, hcursor, hlimit]
  split
  · exact drain_coupled _
  split
  · exact (refill_coupled hr).bind fun _ => drain_coupled _
  · exact draw_coupled hr _

theorem pass_coupled (wanted : Nat) : Coupled r (pass wanted) (pass wanted) :=
  enter_coupled.bind fun _ => (refreshIfDue_coupled hr).bind fun _ => serve_coupled hr wanted

theorem act_coupled (op : Locked) : Coupled r op.act op.act := by
  cases op with
  | pass wanted => exact pass_coupled hr wanted
  | reseed seed nonce => exact (reseed_coupled hr seed nonce).bind fun _ => coupled_pure []
  | reseedViaSource nonce =>
    exact (reseedViaSource_coupled hr nonce).bind fun _ => coupled_pure []

/-! ## Requests and runs -/

theorem passes_coupled (rounds wanted : Nat) :
    Coupled r (passes rounds wanted) (passes rounds wanted) := by
  induction rounds generalizing wanted with
  | zero => exact coupled_pure []
  | succ rounds ih =>
    by_cases hwanted : wanted = 0
    · subst hwanted
      exact coupled_pure []
    rw [passes_succ hwanted, passes_succ hwanted]
    apply (pass_coupled hr wanted).bind
    intro bytes
    exact (ih _).bind fun rest => coupled_pure _

theorem generate_coupled (length : Nat) : Coupled r (generate length) (generate length) :=
  passes_coupled hr length length

theorem run_coupled (ops : List Locked) (g : Csprng δ ε π) (g' : Csprng δ' ε' π') :
    (r.escaped g.entropy → r.escaped (run ops g).2.entropy) ∧
      (Related r g g' → r.escaped (run ops g).2.entropy ∨
        ((run ops g).1 = (run ops g').1 ∧ Related r (run ops g).2 (run ops g').2)) := by
  induction ops generalizing g g' with
  | nil => exact ⟨id, fun h => .inr ⟨rfl, h⟩⟩
  | cons op ops ih =>
    have hop := act_coupled hr op
    obtain ⟨hstays, hends⟩ := ih (op.act g).state (op.act g').state
    refine ⟨fun hE => hstays (hop.stays g g' hE), fun h => ?_⟩
    rcases hop.ends g g' h with hE | ⟨hresult, hstate, -⟩
    · exact .inl (hstays hE)
    · refine (hends hstate).imp id fun ⟨hbytes, hlater⟩ => ⟨?_, hlater⟩
      rw [run, run, Locked.bytes, Locked.bytes, hresult, hbytes]

end

end Csprng

/-! ## Parts that carry a record -/

theorem EntropySource.matched_id [EntropySource ε] :
    EntropySource.Matched (fun s s' : ε => id s = s') fun _ => False where
  read := by
    rintro s s' buffer rfl
    exact .inr ⟨rfl, rfl, rfl⟩
  stays := fun _ => id

theorem Policy.matched_id [Policy π] : Policy.Matched fun p p' : π => id p = p' where
  due := by
    rintro p p' rfl
    exact ⟨rfl, rfl⟩
  completed := by
    rintro p p' rfl
    rfl

section

variable (f : δ → δ') (h : ε → ε') (k : π → π')

def Ties.images : Ties δ δ' ε ε' π π' := ⟨(f · = ·), (h · = ·), (k · = ·), fun _ => False⟩

namespace Csprng

open CryptoPrimitives.Action

def image (g : Csprng δ ε π) : Csprng δ' ε' π' :=
  { g with drbg := f g.drbg, entropy := h g.entropy, policy := k g.policy }

theorem related_image (g : Csprng δ ε π) : Related (Ties.images f h k) g (image f h k g) :=
  ⟨rfl, rfl, rfl, rfl⟩

variable {f h k}

theorem Related.image_eq {g : Csprng δ ε π} {g' : Csprng δ' ε' π'}
    (hg : Related (Ties.images f h k) g g') : image f h k g = g' :=
  (hg.eq_with hg.drbg.symm hg.entropy.symm hg.policy.symm).symm

theorem Coupled.simulates {α : Type} {y : Act δ ε π α} {x : Act δ' ε' π' α}
    (hx : Coupled (Ties.images f h k) y x) : Simulates (image f h k) y x := by
  intro g
  obtain ⟨hresult, hstate, hlog⟩ := (hx.ends g _ (related_image f h k g)).resolve_left id
  exact ⟨hresult, hstate.image_eq, hlog⟩

theorem run_image [Drbg δ] [Drbg δ'] [EntropySource ε] [EntropySource ε'] [Policy π] [Policy π']
    (hr : (Ties.images f h k).Lawful) (ops : List Locked) (g : Csprng δ ε π) :
    (run ops g).1 = (run ops (image f h k g)).1 ∧
      image f h k (run ops g).2 = (run ops (image f h k g)).2 := by
  obtain ⟨hbytes, hlater⟩ :=
    ((run_coupled hr ops g _).2 (related_image f h k g)).resolve_left id
  exact ⟨hbytes, hlater.image_eq⟩

end Csprng

end

end CryptoPrimitives
