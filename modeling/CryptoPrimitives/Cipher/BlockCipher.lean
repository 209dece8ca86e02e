import CryptoPrimitives.Algorithm
import CryptoPrimitives.Cipher.Aes
import CryptoPrimitives.Fault

/-!
# Block ciphers

A cipher over blocks of 16 bytes is a key length, the expansion of a key to a schedule and the
encryption of a block under a schedule. A context holds a schedule once it has been keyed.
-/

set_option autoImplicit false

namespace CryptoPrimitives

def blockLen : Nat := 16

abbrev Schedule := Array UInt32

structure BlockCipher where
  keyLen : Nat
  expand : Bytes → Schedule
  run : Schedule → Bytes → Bytes
  length_run : ∀ schedule block, (run schedule block).length = blockLen

namespace BlockCipher

def encrypt (c : BlockCipher) (key block : Bytes) : Bytes := c.run (c.expand key) block

end BlockCipher

theorem Aes.length_encrypt (schedule : Array Aes.Word) (block : Bytes) :
    (Aes.encrypt schedule block).length = blockLen := by
  simp [Aes.encrypt, Aes.State.toBytes, Bytes.be32, blockLen]

def CipherAlg.blockCipher (alg : CipherAlg) : BlockCipher where
  keyLen := alg.keyLen
  expand := Aes.expand
  run := Aes.encrypt
  length_run := Aes.length_encrypt

structure CipherContext (c : BlockCipher) where
  schedule : Option Schedule
  deriving DecidableEq, Repr

namespace CipherContext

variable {c : BlockCipher}

def unkeyed (c : BlockCipher) : CipherContext c := ⟨none⟩

def setKey (context : CipherContext c) (key : Bytes) : Except Fault (CipherContext c) :=
  if key.length = c.keyLen then .ok { context with schedule := some (c.expand key) }
  else .error .invalidInput

def encryptBlock (context : CipherContext c) (block : Bytes) : Except Fault Bytes :=
  if block.length ≠ blockLen then .error .invalidInput
  else
    match context.schedule with
    | none => .error .drbgInvalidState
    | some schedule => .ok (c.run schedule block)

end CipherContext

end CryptoPrimitives
