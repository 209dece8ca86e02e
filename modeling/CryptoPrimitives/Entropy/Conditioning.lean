import CryptoPrimitives.Hash.Digest

/-!
# Conditioning of raw noise

One output is the hash of a marker byte, the output length in bits, and the raw noise. It is
credited with full entropy if the noise holds 64 bits more than it has.
-/

set_option autoImplicit false

namespace CryptoPrimitives

structure Conditioner where
  alg : HashAlg
  deriving DecidableEq, Repr

namespace Conditioner

def marginBits : Nat := 64

def default : Conditioner := ⟨.sha256⟩

def outputLen (c : Conditioner) : Nat := c.alg.outputSize

def condition (c : Conditioner) (raw : Bytes) : Bytes :=
  c.alg.function.hashParts [[0x01], Bytes.be32 (8 * c.outputLen).toUInt32, raw]

def neededInput (c : Conditioner) (minEntropy : Nat) : Option Nat :=
  if minEntropy = 0 then none
  else some (ceilDiv (8 * c.outputLen + marginBits) (min minEntropy 8))

end Conditioner

end CryptoPrimitives
