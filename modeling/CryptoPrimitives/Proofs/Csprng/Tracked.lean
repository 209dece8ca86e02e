import CryptoPrimitives.Csprng.Manager
import CryptoPrimitives.Proofs.Csprng.Kept
import CryptoPrimitives.Proofs.Csprng.Simulation

/-!
# Generator managers with their history

The actions of a manager beside a ledger of where its bytes come from. What a tracked action does to
the manager is what the action itself does, which is `Follows`: the ledger is only written.
-/

set_option autoImplicit false

namespace CryptoPrimitives

structure Ledger where
  cached : List (Option Origin)
  history : History

namespace Ledger

def note (l : Ledger) (e : CsprngEvent) : Ledger := { l with history := l.history ++ [e] }

def latest (l : Ledger) (bytes : Bytes) : List Marked :=
  History.marked (l.history.blocks.length - 1) bytes

def reseeded (l : Ledger) : Ledger :=
  { cached := l.cached.map fun _ => none, history := l.history ++ [.reseeded] }

def answered (l : Ledger) : Except Fault Bytes → Ledger
  | .ok bytes => l.note (.produced bytes)
  | .error .drbgReseedRequired => l.note .required
  | .error _ => l

def emptied (l : Ledger) : Ledger := { l with cached := [] }

def loaded (l : Ledger) (bytes : Bytes) : Ledger :=
  { l with cached := (l.latest bytes).map Prod.snd }

def drained (l : Ledger) (cursor length : Nat) (bytes : Bytes) : Ledger :=
  let rest := l.cached.drop cursor
  { cached := l.cached.take cursor ++ List.replicate length none ++ rest.drop length
    history := l.history ++ History.handOut (bytes.zip (rest.take length)) }

def streamed (l : Ledger) (bytes : Bytes) : Ledger :=
  { l with history := l.history ++ History.handOut (l.latest bytes) }

end Ledger

structure Tracked (δ ε π : Type) where
  manager : Csprng δ ε π
  ledger : Ledger

namespace Tracked

variable {δ ε π α β : Type}

abbrev Watch (δ ε π α : Type) := Action (Tracked δ ε π) α

def watch (x : Csprng.Act δ ε π α) (f : Csprng δ ε π → α → Ledger → Ledger) : Watch δ ε π α :=
  fun t =>
    let r := x t.manager
    match r.result with
    | .ok a => ⟨.ok a, ⟨r.state, f t.manager a t.ledger⟩, r.log⟩
    | .error h => ⟨.error h, ⟨r.state, t.ledger⟩, r.log⟩

def unseen (x : Csprng.Act δ ε π α) : Watch δ ε π α := watch x fun _ _ l => l

section

variable [Drbg δ] [EntropySource ε] [Policy π]

def settle : Watch δ ε π Unit := watch Csprng.settle fun _ _ l => l.reseeded

def refresh : Watch δ ε π Unit := do
  match ← unseen Csprng.collectSeed with
  | .error e => unseen (Csprng.fatal e)
  | .ok seed =>
    match ← unseen (Csprng.reseedDrbg seed none) with
    | .error e => unseen (Csprng.fatal e)
    | .ok () => settle

def askPolicy : Watch δ ε π Bool :=
  watch Csprng.askPolicy fun _ due l => if due then l.note .due else l

def refreshIfDue : Watch δ ε π Unit := do
  let g ← unseen Action.get
  let due ← if g.phase = .reseedDue then pure true else askPolicy
  if due then
    unseen (Action.modify ({ · with phase := .reseedDue }))
    refresh

def callDrbg (length : Nat) : Watch δ ε π (Except Fault Bytes) :=
  watch (Csprng.callDrbg length) fun _ answer l => l.answered answer

def draw (length : Nat) : Watch δ ε π Bytes := do
  match ← callDrbg length with
  | .ok bytes => return bytes
  | .error .drbgReseedRequired =>
    unseen (Action.modify ({ · with phase := .reseedDue }))
    refresh
    match ← callDrbg length with
    | .ok bytes => return bytes
    | .error e => unseen (Csprng.fatal e)
  | .error e => unseen (Csprng.fatal e)

def drain (length : Nat) : Watch δ ε π Bytes :=
  watch (Csprng.drain length) fun g bytes l => l.drained g.cursor length bytes

def refill : Watch δ ε π Unit := do
  let g ← unseen Action.get
  watch (Action.modify ({ · with cache := [] })) fun _ _ l => l.emptied
  let bytes ← draw g.cache.length
  watch (Action.modify ({ · with cache := bytes, cursor := 0 })) fun _ _ l => l.loaded bytes
  unseen (Action.note .trace s!"csprng cache refilled with {bytes.length} bytes")

def serve (wanted : Nat) : Watch δ ε π Bytes := do
  let g ← unseen Action.get
  if wanted ≤ g.cache.length - g.cursor then drain wanted
  else if wanted < g.cache.length then
    refill
    drain wanted
  else
    let bytes ← draw (min wanted g.maxRequest)
    watch (pure bytes) fun _ bytes l => l.streamed bytes

def pass (wanted : Nat) : Watch δ ε π Bytes := do
  unseen Csprng.enter
  refreshIfDue
  serve wanted

def reseed (seed nonce : Bytes) : Watch δ ε π (Except Fault Unit) := do
  unseen Csprng.enter
  match ← unseen (Csprng.reseedDrbg seed (some nonce)) with
  | .error e => return .error e
  | .ok () =>
    settle
    return .ok ()

def reseedViaSource (nonce : Bytes) : Watch δ ε π (Except Fault Unit) := do
  unseen Csprng.enter
  match ← unseen Csprng.collectSeed with
  | .error e => return .error e
  | .ok seed =>
    match ← unseen (Csprng.reseedDrbg seed (some nonce)) with
    | .error e => return .error e
    | .ok () =>
      settle
      return .ok ()

end

/-! ## A tracked action does what the action does -/

def Follows (y : Watch δ ε π α) (x : Csprng.Act δ ε π α) : Prop :=
  ∀ t, (y t).result = (x t.manager).result ∧ (y t).state.manager = (x t.manager).state ∧
    (y t).log = (x t.manager).log

theorem follows_pure (a : α) : Follows (pure a : Watch δ ε π α) (pure a) :=
  Action.simulates_pure a

theorem follows_watch (x : Csprng.Act δ ε π α) (f : Csprng δ ε π → α → Ledger → Ledger) :
    Follows (watch x f) x := by
  intro t
  unfold watch
  cases hr : (x t.manager).result with
  | error h => simp [hr]
  | ok a => simp [hr]

theorem follows_unseen (x : Csprng.Act δ ε π α) : Follows (unseen x) x := follows_watch x _

theorem Follows.bind {y : Watch δ ε π α} {x : Csprng.Act δ ε π α} {k : α → Watch δ ε π β}
    {f : α → Csprng.Act δ ε π β} (hx : Follows y x) (hf : ∀ a, Follows (k a) (f a)) :
    Follows (y >>= k) (x >>= f) :=
  Action.Simulates.bind hx hf

/-- What comes after may write in the ledger. -/
theorem Follows.after {y : Watch δ ε π α} {x : Csprng.Act δ ε π α} {k : α → Watch δ ε π α}
    (hx : Follows y x) (hk : ∀ a, Follows (k a) (pure a)) : Follows (y >>= k) x :=
  Action.Simulates.after hx hk

theorem reseed_follows [Drbg δ] [Policy π] (seed nonce : Bytes) :
    Follows (reseed (δ := δ) (ε := ε) (π := π) seed nonce) (Csprng.reseed seed nonce) := by
  apply (follows_unseen _).bind
  intro _
  apply (follows_unseen _).bind
  intro answer
  cases answer with
  | error e => exact follows_pure _
  | ok u => exact (follows_watch _ _).bind fun _ => follows_pure _

section

variable [Drbg δ] [EntropySource ε] [Policy π]

theorem refresh_follows : Follows (refresh (δ := δ) (ε := ε) (π := π)) Csprng.refresh := by
  apply (follows_unseen _).bind
  intro seed
  cases seed with
  | error e => exact follows_unseen _
  | ok seed =>
    apply (follows_unseen _).bind
    intro answer
    cases answer with
    | error e => exact follows_unseen _
    | ok u => exact follows_watch _ _

theorem due_refresh_follows :
    Follows (δ := δ) (ε := ε) (π := π)
      (do unseen (Action.modify ({ · with phase := .reseedDue })); refresh)
      (do Action.modify ({ · with phase := .reseedDue }); Csprng.refresh) :=
  (follows_unseen _).bind fun _ => refresh_follows

theorem refreshIfDue_follows :
    Follows (refreshIfDue (δ := δ) (ε := ε) (π := π)) Csprng.refreshIfDue := by
  apply (follows_unseen _).bind
  intro g
  dsimp only
  split
  · exact (follows_pure true).bind fun due => by
      cases due with
      | false => exact follows_pure ()
      | true => exact due_refresh_follows
  · exact (follows_watch _ _).bind fun due => by
      cases due with
      | false => exact follows_pure ()
      | true => exact due_refresh_follows

theorem draw_follows (length : Nat) :
    Follows (draw (δ := δ) (ε := ε) (π := π) length) (Csprng.draw length) := by
  apply (follows_watch _ _).bind
  intro answer
  rcases answer with e | bytes
  · cases e with
    | drbgReseedRequired =>
      apply (follows_unseen _).bind
      intro _
      apply refresh_follows.bind
      intro _
      apply (follows_watch _ _).bind
      intro again
      cases again with
      | ok bytes => exact follows_pure _
      | error e => exact follows_unseen _
    | _ => exact follows_unseen _
  · exact follows_pure _

theorem refill_follows : Follows (refill (δ := δ) (ε := ε) (π := π)) Csprng.refill := by
  apply (follows_unseen _).bind
  intro g
  apply (follows_watch _ _).bind
  intro _
  apply (draw_follows _).bind
  intro bytes
  apply (follows_watch _ _).bind
  intro _
  exact follows_unseen _

theorem serve_follows (wanted : Nat) :
    Follows (serve (δ := δ) (ε := ε) (π := π) wanted) (Csprng.serve wanted) := by
  apply (follows_unseen _).bind
  intro g
  split
  · exact follows_watch _ _
  · split
    · exact refill_follows.bind fun _ => follows_watch _ _
    · exact (draw_follows _).after fun bytes => follows_watch _ _

theorem pass_follows (wanted : Nat) :
    Follows (pass (δ := δ) (ε := ε) (π := π) wanted) (Csprng.pass wanted) :=
  (follows_unseen _).bind fun _ => refreshIfDue_follows.bind fun _ => serve_follows wanted

theorem reseedViaSource_follows (nonce : Bytes) :
    Follows (reseedViaSource (δ := δ) (ε := ε) (π := π) nonce) (Csprng.reseedViaSource nonce) := by
  apply (follows_unseen _).bind
  intro _
  apply (follows_unseen _).bind
  intro seed
  cases seed with
  | error e => exact follows_pure _
  | ok seed =>
    apply (follows_unseen _).bind
    intro answer
    cases answer with
    | error e => exact follows_pure _
    | ok u => exact (follows_watch _ _).bind fun _ => follows_pure _

end

end Tracked

end CryptoPrimitives
