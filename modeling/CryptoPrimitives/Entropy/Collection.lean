import CryptoPrimitives.Entropy.Source

/-!
# Collecting entropy

A buffer is filled from a source read by read, each read being offered what is still missing.
Errors and empty reads are counted together against a budget of attempts; when it is used up the
buffer is wiped and the collection fails.
-/

set_option autoImplicit false

namespace CryptoPrimitives

structure Collected (ε : Type) where
  outcome : Except Fault Unit
  buffer : Bytes
  source : ε

variable {ε : Type} [EntropySource ε]

namespace Collection

def attemptText (failures maxRetry : Nat) (what : String) : String :=
  s!"entropy attempt {failures + 1}/{maxRetry} {what}"

def complaint : Except Fault Nat → String
  | .ok _ => "returned no data"
  | .error e => "failed: " ++ e.message

def loop (maxRetry : Nat) : Nat → Nat → Bytes → Bytes → ε → Recorded LogLine (Collected ε)
  | 0, _, filled, rest, source =>
    return ⟨.error .entropySourceFailure, Bytes.zeros (filled.length + rest.length), source⟩
  | reads + 1, failures, filled, rest, source => do
    if rest.isEmpty then return ⟨.ok (), filled, source⟩
    let (delivery, source) ← EntropySource.read source rest
    let rest := delivery.buffer rest
    match delivery.outcome with
    | .ok (n + 1) =>
      loop maxRetry reads failures (filled ++ rest.take (n + 1)) (rest.drop (n + 1)) source
    | outcome =>
      Recorded.note ⟨.warn, attemptText failures maxRetry (complaint outcome)⟩
      if maxRetry ≤ failures + 1 then
        return ⟨.error .entropySourceFailure, Bytes.zeros (filled.length + rest.length), source⟩
      loop maxRetry reads (failures + 1) filled rest source

end Collection

def collect (source : ε) (length maxRetry : Nat) : Recorded LogLine (Collected ε) :=
  -- Each read delivers a byte or fails an attempt.
  Collection.loop maxRetry (length + max maxRetry 1 + 1) 0 [] (Bytes.zeros length) source

end CryptoPrimitives
