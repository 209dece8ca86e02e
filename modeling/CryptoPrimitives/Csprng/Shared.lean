import CryptoPrimitives.Csprng.Manager

/-!
# The shared manager

One manager for a whole process, made from the system's entropy when it is first asked for and
never replaced.
-/

set_option autoImplicit false

namespace CryptoPrimitives

abbrev SharedCsprng := Csprng Generator SystemEntropy Policy.Counter

namespace Csprng.Shared

def reseedSteps : UInt64 := 65536

def personalization : Bytes := "ccrypto-rng global csprng".toUTF8.toList

def obtain (cell : Option SharedCsprng) (system : SystemEntropy) :
    Recorded LogLine (Except Fault SharedCsprng) := do
  match cell with
  | some shared => return .ok shared
  | none =>
    let (made, _) ← ofEntropySource {} system (Policy.Counter.create reseedSteps) personalization
    match made with
    | .ok shared => return .ok shared
    | .error e =>
      Recorded.note ⟨.error, "cannot seed the global csprng: " ++ e.message⟩
      return .error e

end Csprng.Shared

end CryptoPrimitives
