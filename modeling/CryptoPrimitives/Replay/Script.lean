import CryptoPrimitives.Entropy.Source

/-!
# Scripted sources

A source that answers reads from a script, for reproducible runs of whatever consumes entropy or
noise. Each step of the script serves a number of reads; past the last one reads fail. The lengths
asked for are kept, the latest first.
-/

set_option autoImplicit false

namespace CryptoPrimitives.Replay

inductive Reading
  | fail (e : Fault)
  | constant (b : UInt8)
  | counting (start : UInt8)
  | literal (data : Bytes)
  deriving DecidableEq, Repr

/-- `count` bytes at most are written, all that fit if it is absent; `claim` replaces the result. -/
structure ReadStep where
  reading : Reading
  count : Option Nat
  claim : Option Nat
  times : Nat
  deriving DecidableEq, Repr

namespace ReadStep

def deliver (step : ReadStep) (before length : Nat) : Delivery :=
  let wanted := step.count.getD length
  let room := min wanted length
  match step.reading with
  | .fail e => ⟨[], .error e⟩
  | .constant b => ⟨List.replicate room b, .ok (step.claim.getD wanted)⟩
  | .counting start =>
    ⟨(List.range room).map fun i => start + (before + i).toUInt8, .ok (step.claim.getD wanted)⟩
  | .literal data => ⟨data.take length, .ok (step.claim.getD (min data.length length))⟩

end ReadStep

structure Script where
  steps : List ReadStep
  served : Nat
  written : Nat
  asked : List Nat
  deriving DecidableEq, Repr

namespace Script

def ofSteps (steps : List ReadStep) : Script := ⟨steps.filter (0 < ·.times), 0, 0, []⟩

def read (s : Script) (buffer : Bytes) : Delivery × Script :=
  let s := { s with asked := buffer.length :: s.asked }
  match s.steps with
  | [] => (⟨[], .error .entropySourceFailure⟩, s)
  | step :: rest =>
    let delivery := step.deliver s.written buffer.length
    let served := s.served + 1
    if step.times ≤ served then (delivery, { s with steps := rest, served := 0, written := 0 })
    else (delivery, { s with served, written := s.written + delivery.written.length })

instance : EntropySource Script where
  read s buffer := pure (s.read buffer)

end Script

structure ScriptedNoise where
  script : Script
  name : String
  minEntropy : Nat
  deriving DecidableEq, Repr

instance : NoiseSource ScriptedNoise where
  name n := n.name
  minEntropy n := n.minEntropy
  read n buffer :=
    let (delivery, script) := n.script.read buffer
    pure (delivery, { n with script })

end CryptoPrimitives.Replay
