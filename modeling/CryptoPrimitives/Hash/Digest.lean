import CryptoPrimitives.Algorithm
import CryptoPrimitives.Fault
import CryptoPrimitives.Hash.Sha256
import CryptoPrimitives.Hash.Sha512

/-!
# Digests

A hash function has an output of fixed length that fits its block; there is one under each
algorithm. Its context is fed piece by piece. Finishing writes the hash of all that was fed since
the last reset and starts afresh; a buffer that is too short is refused and changes nothing.
-/

set_option autoImplicit false

namespace CryptoPrimitives

def HashAlg.hash : HashAlg → Bytes → Bytes
  | .sha256, message => Sha256.hash message
  | .sha384, message => Sha512.hash384 message
  | .sha512, message => Sha512.hash message

structure HashFunction where
  outputSize : Nat
  blockSize : Nat
  securityStrength : Nat
  hash : Bytes → Bytes
  outputSize_pos : 0 < outputSize
  outputSize_le : outputSize ≤ blockSize
  length_hash : ∀ message, (hash message).length = outputSize

def HashAlg.function (alg : HashAlg) : HashFunction where
  outputSize := alg.outputSize
  blockSize := alg.blockSize
  securityStrength := alg.securityStrength
  hash := alg.hash
  outputSize_pos := by cases alg <;> decide
  outputSize_le := by cases alg <;> decide
  length_hash message := by cases alg <;> rfl

structure Finished (κ : Type) where
  outcome : Except Fault Unit
  out : Bytes
  context : κ

structure Digest (H : HashFunction) where
  fed : Bytes
  deriving DecidableEq, Repr

namespace Digest

variable {H : HashFunction}

def fresh (H : HashFunction) : Digest H := ⟨[]⟩

def update (d : Digest H) (data : Bytes) : Digest H := ⟨d.fed ++ data⟩

def reset (_ : Digest H) : Digest H := ⟨[]⟩

def finish (d : Digest H) (out : Bytes) : Finished (Digest H) :=
  if out.length < H.outputSize then ⟨.error (.bufferTooSmall H.outputSize out.length), out, d⟩
  else ⟨.ok (), Bytes.overlay (H.hash d.fed) out, d.reset⟩

end Digest

def HashFunction.hashParts (H : HashFunction) (parts : List Bytes) : Bytes :=
  ((parts.foldl Digest.update (Digest.fresh H)).finish (Bytes.zeros H.outputSize)).out

end CryptoPrimitives
