import CryptoPrimitives.Csprng.Action
import CryptoPrimitives.Csprng.Policy
import CryptoPrimitives.Drbg.Mechanism
import CryptoPrimitives.Entropy.Collection

/-!
# The generator manager

A manager owns a generator, an entropy source, a reseed policy and a cache of output. A request is
served in passes: each asks the policy, reseeds if that is due, and hands out bytes from the cache
or from one call of the generator. A cached byte is handed out once and wiped, and a reseed wipes
the cache. When an implicit reseed or a call of the generator fails, the manager wipes its state and
halts for good.
-/

set_option autoImplicit false

namespace CryptoPrimitives

structure CsprngSettings where
  drbg : Mechanism := .default
  cacheSize : Nat := 256
  maxRequest : Nat := 4096
  entropyLen : Option Nat := none
  maxReseedRetry : Nat := 100
  deriving DecidableEq, Repr

def CsprngSettings.seedLen (settings : CsprngSettings) : Nat :=
  settings.entropyLen.getD settings.drbg.entropyLen

inductive CsprngPhase
  | seeded
  | reseedDue
  | fatal
  deriving DecidableEq, Repr

structure Csprng (δ ε π : Type) where
  drbg : δ
  policy : π
  entropy : ε
  cache : Bytes
  cursor : Nat
  phase : CsprngPhase
  maxRequest : Nat
  entropyLen : Nat
  maxRetry : Nat

namespace Csprng

variable {δ ε π : Type}

def ofDrbg [Drbg δ] (settings : CsprngSettings) (drbg : δ) (entropy : ε) (policy : π) :
    Except Fault (Csprng δ ε π) :=
  let maxRequest := min settings.maxRequest (Drbg.maxRequestSize drbg)
  if maxRequest = 0 then .error .invalidInput
  else
    let cacheSize := min settings.cacheSize maxRequest
    .ok
      { drbg, policy, entropy, cache := Bytes.zeros cacheSize, cursor := cacheSize,
        phase := .seeded, maxRequest, entropyLen := settings.seedLen,
        maxRetry := max settings.maxReseedRetry 1 }

def create (settings : CsprngSettings) (entropy : ε) (policy : π)
    (seed nonce personalization : Bytes) :
    Recorded LogLine (Except Fault (Csprng Generator ε π)) := do
  match ← settings.drbg.instantiate seed nonce personalization with
  | .error e => return .error e
  | .ok drbg => return ofDrbg settings drbg entropy policy

def nonceLen : Nat := 16

def ofEntropySource [EntropySource ε] (settings : CsprngSettings) (entropy : ε) (policy : π)
    (personalization : Bytes) :
    Recorded LogLine (Except Fault (Csprng Generator ε π) × ε) := do
  let seedLen := settings.seedLen
  let material ← collect entropy (seedLen + nonceLen) settings.maxReseedRetry
  match material.outcome with
  | .error e => return (.error e, material.source)
  | .ok () =>
    let made ← create settings material.source policy (material.buffer.take seedLen)
      (material.buffer.drop seedLen) personalization
    return (made, material.source)

variable [Drbg δ] [EntropySource ε] [Policy π]

abbrev Act (δ ε π α : Type) := Action (Csprng δ ε π) α

def ruined (g : Csprng δ ε π) : Csprng δ ε π :=
  { g with
    phase := .fatal
    cache := Bytes.zeros g.cache.length
    cursor := g.cache.length
    drbg := Drbg.done g.drbg }

def fatal {α : Type} (cause : Fault) : Act δ ε π α := do
  Action.note .error ("csprng entering fatal state: " ++ cause.message)
  Action.modify ruined
  Action.halt (.entered cause)

/-! ## Reseeding -/

def refreshed (g : Csprng δ ε π) : Csprng δ ε π :=
  { g with
    cache := Bytes.zeros g.cache.length
    cursor := g.cache.length
    phase := .seeded
    policy := Policy.completed g.policy }

def settle : Act δ ε π Unit := do
  Action.modify refreshed
  Action.note .debug "csprng reseeded"

def collectSeed : Act δ ε π (Except Fault Bytes) :=
  Action.recorded fun g => do
    let seed ← collect g.entropy g.entropyLen g.maxRetry
    return (seed.outcome.map fun _ => seed.buffer, { g with entropy := seed.source })

def reseedDrbg (seed : Bytes) (additional : Option Bytes) : Act δ ε π (Except Fault Unit) :=
  Action.query fun g =>
    let (answer, drbg) := Drbg.reseed g.drbg seed additional
    (answer, { g with drbg })

def refresh : Act δ ε π Unit := do
  match ← collectSeed with
  | .error e => fatal e
  | .ok seed =>
    match ← reseedDrbg seed none with
    | .error e => fatal e
    | .ok () => settle

def askPolicy : Act δ ε π Bool :=
  Action.query fun g =>
    let (due, policy) := Policy.due g.policy
    (due, { g with policy })

def refreshIfDue : Act δ ε π Unit := do
  let g ← Action.get
  let due ← if g.phase = .reseedDue then pure true else askPolicy
  if due then
    Action.modify ({ · with phase := .reseedDue })
    refresh

/-! ## Handing out bytes -/

def callDrbg (length : Nat) : Act δ ε π (Except Fault Bytes) :=
  Action.query fun g =>
    let (answer, drbg) := Drbg.generate g.drbg length none
    (answer, { g with drbg })

def draw (length : Nat) : Act δ ε π Bytes := do
  match ← callDrbg length with
  | .ok bytes => return bytes
  | .error .drbgReseedRequired =>
    Action.modify ({ · with phase := .reseedDue })
    refresh
    match ← callDrbg length with
    | .ok bytes => return bytes
    | .error e => fatal e
  | .error e => fatal e

def drain (length : Nat) : Act δ ε π Bytes :=
  Action.query fun g =>
    let rest := g.cache.drop g.cursor
    (rest.take length,
      { g with
        cache := g.cache.take g.cursor ++ Bytes.zeros length ++ rest.drop length
        cursor := g.cursor + length })

def refill : Act δ ε π Unit := do
  let g ← Action.get
  -- While the draw lasts there is no cache: a reseed on its way has none to wipe.
  Action.modify ({ · with cache := [] })
  let bytes ← draw g.cache.length
  Action.modify ({ · with cache := bytes, cursor := 0 })
  Action.note .trace s!"csprng cache refilled with {bytes.length} bytes"

def serve (wanted : Nat) : Act δ ε π Bytes := do
  let g ← Action.get
  if wanted ≤ g.cache.length - g.cursor then drain wanted
  else if wanted < g.cache.length then
    refill
    drain wanted
  else draw (min wanted g.maxRequest)

def enter : Act δ ε π Unit := do
  let g ← Action.get
  if g.phase = .fatal then Action.halt .found

def pass (wanted : Nat) : Act δ ε π Bytes := do
  enter
  refreshIfDue
  serve wanted

def passes : Nat → Nat → Act δ ε π Bytes
  | 0, _ => pure []
  | rounds + 1, wanted => fun g =>
    if wanted = 0 then ⟨.ok [], g, []⟩
    else
      match pass wanted g with
      | ⟨.error h, g, log⟩ => ⟨.error h, g, log⟩
      | ⟨.ok bytes, g, log⟩ =>
        let rest := passes rounds (wanted - bytes.length) g
        ⟨rest.result.map (bytes ++ ·), rest.state, log ++ rest.log⟩

def generate (length : Nat) : Act δ ε π Bytes :=
  -- Each pass serves a byte at least.
  passes length length

def fill (length : Nat) : Act δ ε π (Except Fault Bytes) := do
  let bytes ← generate length
  return .ok bytes

/-! ## Explicit reseeds -/

def reseed (seed nonce : Bytes) : Act δ ε π (Except Fault Unit) := do
  enter
  match ← reseedDrbg seed (some nonce) with
  | .error e => return .error e
  | .ok () =>
    settle
    return .ok ()

def reseedViaSource (nonce : Bytes) : Act δ ε π (Except Fault Unit) := do
  enter
  match ← collectSeed with
  | .error e => return .error e
  | .ok seed =>
    match ← reseedDrbg seed (some nonce) with
    | .error e => return .error e
    | .ok () =>
      settle
      return .ok ()

end Csprng

end CryptoPrimitives
