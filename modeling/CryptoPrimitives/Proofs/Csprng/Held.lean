import CryptoPrimitives.Proofs.Csprng.Steps
import CryptoPrimitives.Proofs.Csprng.Tracked

/-!
# What a step of a manager leaves

`Held first h0 p t` is the state within a step that began with the history `h0`: nothing was handed
out yet, and `p` tells whether a reseed is pending; the blocks so far are those of a generator that
began as `first`. A step ends in `Served`, which handed out its bytes after all other events, or in
`Halted`, which handed out none and made the manager fatal.
-/

set_option autoImplicit false

namespace CryptoPrimitives

namespace Tracked

open History

variable {δ ε π α β : Type}

def Meets (P : Tracked δ ε π → Prop) (y : Watch δ ε π α) (Q : α → Tracked δ ε π → Prop)
    (E : Tracked δ ε π → Prop) : Prop :=
  ∀ t, P t →
    (∀ a, (y t).result = .ok a → Q a (y t).state) ∧ (∀ h, (y t).result = .error h → E (y t).state)

section rules

variable {P : Tracked δ ε π → Prop} {E : Tracked δ ε π → Prop}

theorem meets_ok {y : Watch δ ε π α} {Q : α → Tracked δ ε π → Prop}
    (hy : ∀ t, P t → ∃ a, (y t).result = .ok a ∧ Q a (y t).state) : Meets P y Q E := by
  intro t ht
  obtain ⟨a, ha, hq⟩ := hy t ht
  constructor
  · intro a' ha'
    rw [ha] at ha'
    cases ha'
    exact hq
  · intro h hh
    rw [ha] at hh
    cases hh

theorem meets_error {y : Watch δ ε π α} {Q : α → Tracked δ ε π → Prop}
    (hy : ∀ t, P t → ∃ h, (y t).result = .error h ∧ E (y t).state) : Meets P y Q E := by
  intro t ht
  obtain ⟨h, hh, he⟩ := hy t ht
  constructor
  · intro a ha
    rw [hh] at ha
    cases ha
  · intro h' _
    exact he

theorem meets_pure {Q : α → Tracked δ ε π → Prop} (a : α) (hq : ∀ t, P t → Q a t) :
    Meets P (pure a) Q E :=
  meets_ok fun t ht => ⟨a, rfl, hq t ht⟩

theorem Meets.bind {y : Watch δ ε π α} {k : α → Watch δ ε π β} {R : α → Tracked δ ε π → Prop}
    {Q : β → Tracked δ ε π → Prop} (hy : Meets P y R E) (hk : ∀ a, Meets (R a) (k a) Q E) :
    Meets P (y >>= k) Q E := by
  intro t ht
  obtain ⟨hok, herr⟩ := hy t ht
  rcases hrun : y t with ⟨h | a, s, log⟩
  · rw [hrun] at herr
    rw [Action.bind_error hrun]
    exact ⟨fun b hb => (by cases hb), fun h' _ => herr h rfl⟩
  · rw [hrun] at hok
    rw [Action.bind_ok hrun]
    exact hk a s (hok a rfl)

end rules

/-! ## Ledgers and caches -/

def remaining (t : Tracked δ ε π) : List Marked :=
  (t.manager.cache.zip t.ledger.cached).drop t.manager.cursor

/-- What has been made of a generator that was in the state `first`: the blocks in order, each an
answer of the state that the calls before had left, and the state now. -/
inductive Generated [Drbg δ] (first : δ) : List Bytes → δ → Prop
  | nothing : Generated first [] first
  | block {made : List Bytes} {d : δ} {length : Nat} {bytes : Bytes} (h : Generated first made d)
      (answer : (Drbg.generate d length none).1 = .ok bytes) :
      Generated first (made ++ [bytes]) (Drbg.generate d length none).2
  | refused {made : List Bytes} {d : δ} {length : Nat} {e : Fault} (h : Generated first made d)
      (answer : (Drbg.generate d length none).1 = .error e) :
      Generated first made (Drbg.generate d length none).2
  | reseed {made : List Bytes} {d : δ} (seed : Bytes) (additional : Option Bytes)
      (h : Generated first made d) : Generated first made (Drbg.reseed d seed additional).2
  | done {made : List Bytes} {d : δ} (h : Generated first made d) :
      Generated first made (Drbg.done d)

theorem Generated.note [Drbg δ] {first d : δ} {h : History} (hg : Generated first (blockBytes h) d)
    (e : CsprngEvent) (he : ∀ bytes, e ≠ .produced bytes) :
    Generated first (blockBytes (h ++ [e])) d := by
  rwa [blockBytes_note h he]

theorem Generated.handOut [Drbg δ] {first d : δ} {h : History}
    (hg : Generated first (blockBytes h) d) (out : List Marked) :
    Generated first (blockBytes (h ++ History.handOut out)) d := by
  rwa [blockBytes_append, blockBytes_handOut, List.append_nil]

theorem events_note {h0 h : History} {p : Bool} (e : CsprngEvent) (he : ∀ b o, e ≠ .handed b o)
    (hev : ∃ es, h = h0 ++ es ∧ handouts es = [] ∧ pendingFrom false es = p) :
    ∃ es, h ++ [e] = h0 ++ es ∧ handouts es = [] ∧ pendingFrom false es = pendingFrom p [e] := by
  obtain ⟨es, hes, hquiet, hp⟩ := hev
  refine ⟨es ++ [e], ?_, ?_, ?_⟩
  · rw [hes, List.append_assoc]
  · rw [handouts_quiet he, hquiet]
  · rw [pendingFrom_append, hp]

theorem latest_produced (l : Ledger) (bytes : Bytes) :
    (l.note (.produced bytes)).latest bytes = marked l.history.blocks.length bytes := by
  rw [Ledger.latest, Ledger.note, blocks_append, List.length_append]
  rfl

theorem refilled_remaining (l : Ledger) (bytes : Bytes) :
    bytes.zip ((l.latest bytes).map Prod.snd) = l.latest bytes :=
  (List.zip_of_prod (marked_fst _ bytes) rfl).symm

/-- Wiping what stood between the cursor and its new place leaves the rest as it was. -/
theorem drained_rest {γ : Type} (l : List γ) (x : γ) (cursor n : Nat) :
    (l.take cursor ++ List.replicate n x ++ (l.drop cursor).drop n).drop (cursor + n) =
      (l.drop cursor).drop n := by
  rw [List.drop_drop]
  by_cases hc : cursor ≤ l.length
  · apply List.drop_left'
    rw [List.length_append, List.length_take_of_le hc, List.length_replicate]
  · have hend : l.drop (cursor + n) = [] := List.drop_eq_nil_of_le (by omega)
    rw [hend, List.append_nil]
    apply List.drop_eq_nil_of_le
    rw [List.length_append, List.length_take, List.length_replicate]
    omega

theorem drained_zip {cache : Bytes} {cached : List (Option Origin)}
    (hsized : cached.length = cache.length) (cursor n : Nat) :
    (cache.take cursor ++ Bytes.zeros n ++ (cache.drop cursor).drop n).zip
        (cached.take cursor ++ List.replicate n none ++ (cached.drop cursor).drop n) =
      (cache.zip cached).take cursor ++ List.replicate n (0, none) ++
        ((cache.zip cached).drop cursor).drop n := by
  rw [List.zip_append, List.zip_append, Bytes.zeros, List.zip_replicate']
  · simp only [List.zip_eq_zipWith, List.take_zipWith, List.drop_zipWith]
  · simp [hsized]
  · simp [Bytes.zeros, hsized]

/-! ## The states of a step -/

variable [Drbg δ] {first : δ}

structure Tidy (first : δ) (t : Tracked δ ε π) : Prop where
  sized : t.ledger.cached.length = t.manager.cache.length
  kept : Kept t.ledger.history t.remaining
  genuine : Generated first (blockBytes t.ledger.history) t.manager.drbg

structure Held (first : δ) (h0 : History) (p : Bool) (t : Tracked δ ε π) : Prop where
  tidy : t.Tidy first
  events : ∃ es, t.ledger.history = h0 ++ es ∧ handouts es = [] ∧ pendingFrom false es = p

structure Served (first : δ) (h0 : History) (bytes : Bytes) (t : Tracked δ ε π) : Prop where
  tidy : t.Tidy first
  events : ∃ es out, t.ledger.history = h0 ++ (es ++ handOut out) ∧ handouts es = [] ∧
    pendingFrom false es = false ∧ out.map Prod.fst = bytes

structure Halted (first : δ) (h0 : History) (t : Tracked δ ε π) : Prop where
  tidy : t.Tidy first
  events : ∃ es, t.ledger.history = h0 ++ es ∧ handouts es = []
  fatal : t.manager.phase = .fatal

theorem Held.keep {h0 : History} {p : Bool} {t t' : Tracked δ ε π} (ht : Held first h0 p t)
    (hledger : t'.ledger = t.ledger) (hcache : t'.manager.cache = t.manager.cache)
    (hcursor : t'.manager.cursor = t.manager.cursor)
    (hgenuine : Generated first (blockBytes t.ledger.history) t'.manager.drbg) :
    Held first h0 p t' := by
  have hrem : t'.remaining = t.remaining := by
    rw [remaining, remaining, hledger, hcache, hcursor]
  have hsized := ht.tidy.sized
  have hkept := ht.tidy.kept
  rw [← hledger, ← hcache] at hsized
  rw [← hledger, ← hrem] at hkept
  rw [← hledger] at hgenuine
  exact ⟨⟨hsized, hkept, hgenuine⟩, by rw [hledger]; exact ht.events⟩

theorem Held.halted {h0 : History} {p : Bool} {t : Tracked δ ε π} (ht : Held first h0 p t)
    (hf : t.manager.phase = .fatal) : Halted first h0 t := by
  obtain ⟨es, hes, hquiet, -⟩ := ht.events
  exact ⟨ht.tidy, ⟨es, hes, hquiet⟩, hf⟩

theorem Held.served {h0 : History} {t : Tracked δ ε π} (ht : Held first h0 false t) :
    Served first h0 [] t := by
  obtain ⟨es, hes, hquiet, hp⟩ := ht.events
  exact ⟨ht.tidy, es, [], by rw [hes]; simp [handOut], hquiet, hp, rfl⟩

theorem Held.start {t : Tracked δ ε π} (ht : t.Tidy first) :
    Held first t.ledger.history false t :=
  ⟨ht, [], (List.append_nil _).symm, rfl, rfl⟩

/-- An event that leaves the cache alone. -/
theorem Held.event {h0 : History} {p : Bool} {t t' : Tracked δ ε π} (ht : Held first h0 p t)
    (e : CsprngEvent) (he : ∀ b o, e ≠ .handed b o) (hr : e ≠ .reseeded)
    (hledger : t'.ledger = t.ledger.note e) (hcache : t'.manager.cache = t.manager.cache)
    (hcursor : t'.manager.cursor = t.manager.cursor)
    (hgenuine : Generated first (blockBytes (t.ledger.history ++ [e])) t'.manager.drbg) :
    Held first h0 (pendingFrom p [e]) t' := by
  have hrem : t'.remaining = t.remaining := by
    rw [remaining, remaining, hledger, hcache, hcursor]
    rfl
  refine ⟨⟨?_, ?_, ?_⟩, ?_⟩
  · rw [hledger, hcache]
    exact ht.tidy.sized
  · rw [hledger, hrem]
    exact ht.tidy.kept.event e he hr
  · rw [hledger]
    exact hgenuine
  · rw [hledger]
    exact events_note e he ht.events

/-- With the cache used up. -/
theorem Held.spent {h0 : History} {p : Bool} {t t' : Tracked δ ε π} (ht : Held first h0 p t)
    (hledger : t'.ledger = t.ledger) (hcache : t'.manager.cache.length = t.manager.cache.length)
    (hcursor : t'.manager.cursor = t.manager.cache.length)
    (hgenuine : Generated first (blockBytes t.ledger.history) t'.manager.drbg) :
    Held first h0 p t' := by
  have hrem : t'.remaining = [] := by
    rw [remaining, List.drop_eq_nil_iff, List.length_zip, hcache, hcursor]
    exact Nat.min_le_left _ _
  refine ⟨⟨?_, ?_, ?_⟩, ?_⟩
  · rw [hledger, hcache]
    exact ht.tidy.sized
  · rw [hrem]
    exact kept_nil (by rw [hledger]; exact ht.tidy.kept.sound)
  · rw [hledger]
    exact hgenuine
  · rw [hledger]
    exact ht.events

/-! ## Requests and reseeds -/

variable {h0 : History} {p : Bool}

theorem get_meets : Meets (Held (ε := ε) (π := π) first h0 p) (unseen Action.get)
    (fun g t => Held first h0 p t ∧ g = t.manager) (Halted first h0) :=
  meets_ok fun t ht => ⟨t.manager, rfl, ht, rfl⟩

theorem enter_meets : Meets (Held (ε := ε) (π := π) first h0 p) (unseen Csprng.enter)
    (fun _ => Held first h0 p) (Halted first h0) := by
  intro t ht
  unfold unseen watch
  rw [Csprng.enter_run]
  by_cases hf : t.manager.phase = .fatal
  · rw [if_pos hf]
    constructor
    · intro a ha
      cases ha
    · intro h _
      exact ht.halted hf
  · rw [if_neg hf]
    constructor
    · intro a _
      exact ht
    · intro h hh
      cases hh

theorem fatal_meets (e : Fault) (Q : α → Tracked δ ε π → Prop) :
    Meets (Held (ε := ε) (π := π) first h0 p) (unseen (Csprng.fatal e)) Q (Halted first h0) := by
  apply meets_error
  intro t ht
  have hspent : Held first h0 p (unseen (Csprng.fatal e : Csprng.Act δ ε π α) t).state :=
    ht.spent rfl List.length_replicate rfl ht.tidy.genuine.done
  exact ⟨.entered e, rfl, hspent.halted rfl⟩

theorem settle_meets [Policy π] : Meets (Held (ε := ε) (π := π) first h0 p) settle
    (fun _ => Held first h0 false) (Halted first h0) := by
  apply meets_ok
  intro t ht
  refine ⟨(), rfl, ⟨?_, ?_, ht.tidy.genuine.note .reseeded (by simp)⟩,
    events_note .reseeded (by simp) ht.events⟩
  · change (t.ledger.cached.map _).length = (Bytes.zeros t.manager.cache.length).length
    rw [List.length_map, Bytes.zeros, List.length_replicate]
    exact ht.tidy.sized
  · have hrem : (settle t).state.remaining = [] := by
      change (List.zip (Bytes.zeros t.manager.cache.length) _).drop t.manager.cache.length = []
      rw [List.drop_eq_nil_iff, List.length_zip, Bytes.zeros, List.length_replicate]
      exact Nat.min_le_left _ _
    rw [hrem]
    exact ht.tidy.kept.reseeded

theorem collectSeed_meets [EntropySource ε] :
    Meets (Held (ε := ε) (π := π) first h0 p) (unseen Csprng.collectSeed) (fun _ => Held first h0 p)
      (Halted first h0) :=
  meets_ok fun _ ht => ⟨_, rfl, ht.keep rfl rfl rfl ht.tidy.genuine⟩

theorem reseedDrbg_meets (seed : Bytes) (additional : Option Bytes) :
    Meets (Held (ε := ε) (π := π) first h0 p) (unseen (Csprng.reseedDrbg seed additional))
      (fun _ => Held first h0 p) (Halted first h0) :=
  meets_ok fun _ ht => ⟨_, rfl, ht.keep rfl rfl rfl (ht.tidy.genuine.reseed seed additional)⟩

theorem fallDue_meets :
    Meets (Held (ε := ε) (π := π) first h0 p)
      (unseen (Action.modify ({ · with phase := .reseedDue }))) (fun _ => Held first h0 p)
      (Halted first h0) :=
  meets_ok fun _ ht => ⟨(), rfl, ht.keep rfl rfl rfl ht.tidy.genuine⟩

theorem askPolicy_meets [Policy π] :
    Meets (Held (ε := ε) (π := π) first h0 false) askPolicy (fun due => Held first h0 due)
      (Halted first h0) := by
  apply meets_ok
  intro t ht
  have hrun : askPolicy t = ⟨.ok (Policy.due t.manager.policy).1,
      ⟨{ t.manager with policy := (Policy.due t.manager.policy).2 },
        if (Policy.due t.manager.policy).1 then t.ledger.note .due else t.ledger⟩, []⟩ := rfl
  rw [hrun]
  refine ⟨_, rfl, ?_⟩
  cases (Policy.due t.manager.policy).1 with
  | false => exact ht.keep rfl rfl rfl ht.tidy.genuine
  | true =>
    exact ht.event .due (by simp) (by simp) rfl rfl rfl
      (ht.tidy.genuine.note .due (by simp))

theorem reseed_meets [Policy π] (seed nonce : Bytes) :
    Meets (Held (ε := ε) (π := π) first h0 false) (reseed seed nonce)
      (fun _ => Held first h0 false) (Halted first h0) := by
  apply enter_meets.bind
  intro _
  apply (reseedDrbg_meets seed (some nonce)).bind
  intro answer
  cases answer with
  | error e => exact meets_pure _ fun _ ht => ht
  | ok u => exact settle_meets.bind fun _ => meets_pure _ fun _ ht => ht

section

variable [EntropySource ε] [Policy π]

theorem refresh_meets : Meets (Held (ε := ε) (π := π) first h0 p) refresh
    (fun _ => Held first h0 false) (Halted first h0) := by
  apply collectSeed_meets.bind
  intro seed
  cases seed with
  | error e => exact fatal_meets e _
  | ok seed =>
    apply (reseedDrbg_meets seed none).bind
    intro answer
    cases answer with
    | error e => exact fatal_meets e _
    | ok u => exact settle_meets

theorem due_refresh_meets : Meets (Held (ε := ε) (π := π) first h0 p)
    (do unseen (Action.modify ({ · with phase := .reseedDue })); refresh)
    (fun _ => Held first h0 false) (Halted first h0) :=
  fallDue_meets.bind fun _ => refresh_meets

theorem refreshIfDue_meets : Meets (Held (ε := ε) (π := π) first h0 false) refreshIfDue
    (fun _ => Held first h0 false) (Halted first h0) := by
  apply get_meets.bind
  intro g
  dsimp only
  split
  · apply Meets.bind (R := fun due t => due = true ∧ Held first h0 false t)
    · apply meets_pure
      intro t ht
      exact ⟨rfl, ht.1⟩
    · intro due t ⟨hdue, ht⟩
      subst hdue
      exact due_refresh_meets t ht
  · apply Meets.bind (R := fun due => Held first h0 due)
    · intro t ht
      exact askPolicy_meets t ht.1
    · intro due
      cases due with
      | false => exact meets_pure () fun _ ht => ht
      | true => exact due_refresh_meets

end

/-! ## Bytes -/

def Answered (first : δ) (h0 : History) : Except Fault Bytes → Tracked δ ε π → Prop
  | .ok bytes, t =>
    Held first h0 false t ∧ Kept t.ledger.history (t.ledger.latest bytes ++ t.remaining)
  | .error .drbgReseedRequired, t => Held first h0 true t
  | .error _, t => Held first h0 false t

theorem callDrbg_meets (length : Nat) :
    Meets (Held (ε := ε) (π := π) first h0 false) (callDrbg length) (Answered first h0)
      (Halted first h0) := by
  apply meets_ok
  intro t ht
  have hrun : callDrbg length t = ⟨.ok (Drbg.generate t.manager.drbg length none).1,
      ⟨{ t.manager with drbg := (Drbg.generate t.manager.drbg length none).2 },
        t.ledger.answered (Drbg.generate t.manager.drbg length none).1⟩, []⟩ := rfl
  rw [hrun]
  refine ⟨_, rfl, ?_⟩
  cases hanswer : (Drbg.generate t.manager.drbg length none).1 with
  | ok bytes =>
    have hmade : Generated first (blockBytes (t.ledger.history ++ [.produced bytes]))
        (Drbg.generate t.manager.drbg length none).2 := by
      rw [blockBytes_append]
      exact ht.tidy.genuine.block hanswer
    refine ⟨ht.event (.produced bytes) (by simp) (by simp) rfl rfl rfl hmade, ?_⟩
    rw [Ledger.answered, latest_produced]
    exact ht.tidy.kept.produced bytes
  | error e =>
    have hmade := ht.tidy.genuine.refused hanswer
    cases e with
    | drbgReseedRequired =>
      exact ht.event .required (by simp) (by simp) rfl rfl rfl
        (hmade.note .required (by simp))
    | _ => exact ht.keep rfl rfl rfl hmade

theorem draw_meets [EntropySource ε] [Policy π] (length : Nat) :
    Meets (Held (ε := ε) (π := π) first h0 false) (draw length)
      (fun bytes => Answered first h0 (.ok bytes)) (Halted first h0) := by
  apply (callDrbg_meets length).bind
  intro answer
  rcases answer with e | bytes
  · cases e with
    | drbgReseedRequired =>
      apply fallDue_meets.bind
      intro _
      apply refresh_meets.bind
      intro _
      apply (callDrbg_meets length).bind
      intro again
      rcases again with e | bytes
      · cases e with
        | drbgReseedRequired => exact fatal_meets _ _
        | _ => exact fatal_meets _ _
      · exact meets_pure bytes fun _ ht => ht
    | _ => exact fatal_meets _ _
  · exact meets_pure bytes fun _ ht => ht

theorem refill_meets [EntropySource ε] [Policy π] :
    Meets (Held (ε := ε) (π := π) first h0 false) refill (fun _ => Held first h0 false)
      (Halted first h0) := by
  apply get_meets.bind
  intro g
  apply Meets.bind (R := fun _ => Held first h0 false)
  · apply meets_ok
    intro t ht
    refine ⟨(), rfl, ⟨rfl, ?_, ht.1.tidy.genuine⟩, ht.1.events⟩
    have hrem : remaining (δ := δ) (ε := ε) (π := π)
        ⟨{ t.manager with cache := [] }, t.ledger.emptied⟩ = [] := by simp [remaining]
    exact hrem ▸ kept_nil ht.1.tidy.kept.sound
  intro _
  apply (draw_meets _).bind
  intro bytes
  apply Meets.bind (R := fun _ => Held first h0 false)
  · apply meets_ok
    intro t ht
    refine ⟨(), rfl, ⟨?_, ?_, ht.1.tidy.genuine⟩, ht.1.events⟩
    · change ((t.ledger.latest bytes).map Prod.snd).length = bytes.length
      rw [List.length_map, ← List.length_map Prod.fst, Ledger.latest, marked_fst]
    · change Kept t.ledger.history (bytes.zip ((t.ledger.latest bytes).map Prod.snd))
      rw [refilled_remaining]
      exact ht.2.sublist (List.sublist_append_left _ _)
  intro _
  exact meets_ok fun _ ht => ⟨(), rfl, ht⟩

theorem Held.drained {t : Tracked δ ε π} (ht : Held first h0 false t) (n : Nat) :
    Served first h0 ((t.manager.cache.drop t.manager.cursor).take n) (drain n t).state := by
  have hsized := ht.tidy.sized
  have hout : ((t.manager.cache.drop t.manager.cursor).take n).zip
      ((t.ledger.cached.drop t.manager.cursor).take n) = t.remaining.take n := by
    simp only [remaining, List.zip_eq_zipWith, List.take_zipWith, List.drop_zipWith]
  have hrest : (drain n t).state.remaining = t.remaining.drop n := by
    have hzip : (drain n t).state.remaining =
        List.drop (t.manager.cursor + n)
          ((t.manager.cache.take t.manager.cursor ++ Bytes.zeros n ++
              (t.manager.cache.drop t.manager.cursor).drop n).zip
            (t.ledger.cached.take t.manager.cursor ++ List.replicate n none ++
              (t.ledger.cached.drop t.manager.cursor).drop n)) := rfl
    rw [hzip, drained_zip hsized, drained_rest, remaining]
  have hhist : (drain n t).state.ledger.history =
      t.ledger.history ++ handOut (t.remaining.take n) := by
    rw [← hout]
    rfl
  refine ⟨⟨?_, ?_, ?_⟩, ?_⟩
  · change (t.ledger.cached.take _ ++ List.replicate n none ++ _).length =
      (t.manager.cache.take _ ++ Bytes.zeros n ++ _).length
    simp [Bytes.zeros, hsized]
  · rw [hhist, hrest]
    apply Kept.handed
    rw [List.take_append_drop]
    exact ht.tidy.kept
  · rw [hhist]
    exact ht.tidy.genuine.handOut _
  · obtain ⟨es, hes, hquiet, hp⟩ := ht.events
    refine ⟨es, t.remaining.take n, ?_, hquiet, hp, ?_⟩
    · rw [hhist, hes, List.append_assoc]
    · rw [← hout]
      apply List.map_fst_zip
      simp [hsized]

theorem drain_meets (n : Nat) : Meets (Held (ε := ε) (π := π) first h0 false) (drain n)
    (Served first h0) (Halted first h0) :=
  meets_ok fun _ ht => ⟨_, rfl, ht.drained n⟩

theorem stream_meets (bytes : Bytes) :
    Meets (Answered (ε := ε) (π := π) first h0 (.ok bytes))
      (watch (pure bytes) fun _ bytes l => l.streamed bytes) (Served first h0)
      (Halted first h0) := by
  apply meets_ok
  intro t ⟨ht, hkept⟩
  obtain ⟨es, hes, hquiet, hp⟩ := ht.events
  refine ⟨bytes, rfl, ⟨ht.tidy.sized, hkept.handed, ht.tidy.genuine.handOut _⟩, es,
    t.ledger.latest bytes, ?_, hquiet, hp, marked_fst _ bytes⟩
  rw [← List.append_assoc, ← hes]
  rfl

section

variable [EntropySource ε] [Policy π]

theorem serve_meets (wanted : Nat) :
    Meets (Held (ε := ε) (π := π) first h0 false) (serve wanted) (Served first h0)
      (Halted first h0) := by
  apply get_meets.bind
  intro g
  have hdrain : Meets (fun t : Tracked δ ε π => Held first h0 false t ∧ g = t.manager)
      (drain wanted) (Served first h0) (Halted first h0) := fun t ht => drain_meets wanted t ht.1
  have hrefill : Meets (fun t : Tracked δ ε π => Held first h0 false t ∧ g = t.manager)
      (do refill; drain wanted) (Served first h0) (Halted first h0) :=
    fun t ht => refill_meets.bind (fun _ => drain_meets wanted) t ht.1
  have hstream : Meets (fun t : Tracked δ ε π => Held first h0 false t ∧ g = t.manager)
      (do
        let bytes ← draw (min wanted g.maxRequest)
        watch (pure bytes) fun _ bytes l => l.streamed bytes) (Served first h0) (Halted first h0) :=
    fun t ht => (draw_meets _).bind stream_meets t ht.1
  split
  · exact hdrain
  · split
    · exact hrefill
    · exact hstream

theorem pass_meets (wanted : Nat) :
    Meets (Held (ε := ε) (π := π) first h0 false) (pass wanted) (Served first h0)
      (Halted first h0) :=
  enter_meets.bind fun _ => refreshIfDue_meets.bind fun _ => serve_meets wanted

theorem reseedViaSource_meets (nonce : Bytes) :
    Meets (Held (ε := ε) (π := π) first h0 false) (reseedViaSource nonce)
      (fun _ => Held first h0 false) (Halted first h0) := by
  apply enter_meets.bind
  intro _
  apply collectSeed_meets.bind
  intro seed
  cases seed with
  | error e => exact meets_pure _ fun _ ht => ht
  | ok seed =>
    apply (reseedDrbg_meets seed (some nonce)).bind
    intro answer
    cases answer with
    | error e => exact meets_pure _ fun _ ht => ht
    | ok u => exact settle_meets.bind fun _ => meets_pure _ fun _ ht => ht

end

end Tracked

end CryptoPrimitives
