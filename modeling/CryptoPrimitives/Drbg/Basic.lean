import CryptoPrimitives.Bytes
import CryptoPrimitives.Fault

/-!
# Deterministic random bit generators

The operations of a generator, and the limits that both mechanisms share: a minimum length of
entropy and a maximum request in strict mode, and a number of calls between reseeds. A request
longer than one call serves is cut into full calls and a rest, and counts as many calls.
-/

set_option autoImplicit false

namespace CryptoPrimitives

class Drbg (δ : Type) where
  reseed : δ → Bytes → Option Bytes → Except Fault Unit × δ
  generate : δ → Nat → Option Bytes → Except Fault Bytes × δ
  maxRequestSize : δ → Nat
  done : δ → δ

namespace Drbg

def maxRequest : Nat := 65536

def defaultReseedInterval : UInt64 := 281474976710656

def callLengths (length : Nat) : List Nat :=
  if length = 0 then [0]
  else
    List.replicate (length / maxRequest) maxRequest ++
      (if length % maxRequest = 0 then [] else [length % maxRequest])

def calls (length : Nat) : Nat := max 1 (ceilDiv length maxRequest)

def saturatingAdd (a b : UInt64) : UInt64 :=
  if a.toNat + b.toNat < UInt64.size then a + b else 0xffffffffffffffff

/-! ## Limits -/

def requireEntropy (strict : Bool) (least length : Nat) : Except Fault Unit :=
  if strict && length < least then .error .invalidInput else .ok ()

def requireLength (strict : Bool) (length : Nat) : Except Fault Unit :=
  if strict && maxRequest < length then .error (.drbgRequestTooLarge maxRequest length) else .ok ()

/-- The counter stands one above the calls made, so all calls of a request fit the interval if its
last one starts with the counter at most there. -/
def requireInterval (counter interval : UInt64) (length : Nat) : Except Fault Unit :=
  if interval < saturatingAdd counter (calls length - 1).toUInt64 then .error .drbgReseedRequired
  else .ok ()

def requireLive (live : Bool) : Except Fault Unit :=
  if live then .ok () else .error .drbgInvalidState

end Drbg

end CryptoPrimitives
