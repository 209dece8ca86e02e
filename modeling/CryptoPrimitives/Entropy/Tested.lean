import CryptoPrimitives.Entropy.Conditioning
import CryptoPrimitives.Entropy.Health
import CryptoPrimitives.Entropy.Source

/-!
# Health-tested entropy

Raw noise is read until there is enough of it to credit one conditioned block, every byte being
tested on the way; blocks are made until the buffer is full, and the last one is cut short.
-/

set_option autoImplicit false

namespace CryptoPrimitives

structure TestedSettings where
  healthTests : Bool := true
  rctCutoff : UInt32 := Health.defaultRctCutoff
  aptWindow : UInt32 := Health.defaultAptWindow
  aptCutoff : UInt32 := Health.defaultAptCutoff
  conditioningHash : HashAlg := .sha256
  deriving DecidableEq, Repr

structure TestedEntropy (ν : Type) where
  health : Option HealthTests
  conditioner : Conditioner
  source : ν

namespace TestedEntropy

variable {ν : Type}

def create (settings : TestedSettings) (source : ν) : TestedEntropy ν where
  health :=
    if settings.healthTests then
      some (.create settings.rctCutoff settings.aptWindow settings.aptCutoff)
    else none
  conditioner := ⟨settings.conditioningHash⟩
  source := source

def examine (t : TestedEntropy ν) (fresh : Bytes) : Verdict (TestedEntropy ν) :=
  match t.health with
  | none => (.ok (), t)
  | some health =>
    let (verdict, health) := health.feedBytes fresh
    (verdict, { t with health := some health })

variable [NoiseSource ν]

def warning (t : TestedEntropy ν) (text : String) : Recorded LogLine Unit :=
  Recorded.note ⟨.warn, "noise source " ++ NoiseSource.name t.source ++ " " ++ text⟩

def fillTested : Nat → TestedEntropy ν → Bytes → Bytes →
    Recorded LogLine (Except Fault Bytes × TestedEntropy ν)
  | 0, t, _, _ => return (.error .entropySourceFailure, t)
  | reads + 1, t, filled, rest => do
    if rest.isEmpty then return (.ok filled, t)
    let (delivery, source) ← NoiseSource.read t.source rest
    let t := { t with source }
    let rest := delivery.buffer rest
    match delivery.outcome with
    | .error e => return (.error e, t)
    | .ok claimed =>
      let count := min claimed rest.length
      if count = 0 then
        t.warning "returned no data"
        return (.error .entropySourceFailure, t)
      match t.examine (rest.take count) with
      | (.error e, t) =>
        t.warning ("failed health test: " ++ e.message)
        return (.error e, t)
      | (.ok (), t) => fillTested reads t (filled ++ rest.take count) (rest.drop count)

def gather (t : TestedEntropy ν) (raw : Bytes) :
    Recorded LogLine (Except Fault Bytes × TestedEntropy ν) :=
  -- Each read delivers a byte or ends the loop.
  fillTested (raw.length + 1) t [] raw

def conditionBlocks : Nat → Bytes → TestedEntropy ν →
    Recorded LogLine (Except Fault Unit × Bytes × TestedEntropy ν)
  | 0, _, t => return (.ok (), [], t)
  | blocks + 1, raw, t => do
    match ← t.gather raw with
    | (.error e, t) => return (.error e, [], t)
    | (.ok raw, t) =>
      let (outcome, rest, t') ← conditionBlocks blocks raw t
      return (outcome, t.conditioner.condition raw ++ rest, t')

instance : EntropySource (TestedEntropy ν) where
  read t buffer :=
    match t.conditioner.neededInput (NoiseSource.minEntropy t.source) with
    | none => return (⟨[], .error .entropySourceFailure⟩, t)
    | some needed => do
      let blocks := ceilDiv buffer.length t.conditioner.outputLen
      let (outcome, written, t) ← conditionBlocks blocks (Bytes.zeros needed) t
      return (⟨written, outcome.map fun _ => buffer.length⟩, t)

def startup (t : TestedEntropy ν) :
    Recorded LogLine (Except Fault Unit × TestedEntropy ν) := do
  match ← t.gather (Bytes.zeros Health.startupSamples) with
  | (.error e, t) => return (.error e, t)
  | (.ok _, t) => return (.ok (), { t with health := t.health.map HealthTests.reset })

end TestedEntropy

end CryptoPrimitives
