/-!
# Algorithm identifiers

The digests, block ciphers and generator mechanisms of the library, with their sizes in bytes and
the names that log lines and printed configurations show.
-/

set_option autoImplicit false

namespace CryptoPrimitives

inductive HashAlg
  | sha256
  | sha384
  | sha512
  deriving DecidableEq, Repr

namespace HashAlg

def outputSize : HashAlg → Nat
  | sha256 => 32
  | sha384 => 48
  | sha512 => 64

def blockSize : HashAlg → Nat
  | sha256 => 64
  | sha384 => 128
  | sha512 => 128

def securityStrength : HashAlg → Nat := fun _ => 32

def name : HashAlg → String
  | sha256 => "Sha256"
  | sha384 => "Sha384"
  | sha512 => "Sha512"

end HashAlg

inductive CipherAlg
  | aes128
  | aes256
  deriving DecidableEq, Repr

namespace CipherAlg

def keyLen : CipherAlg → Nat
  | aes128 => 16
  | aes256 => 32

def blockLen : CipherAlg → Nat := fun _ => 16

def name : CipherAlg → String
  | aes128 => "Aes128"
  | aes256 => "Aes256"

end CipherAlg

inductive DrbgAlg
  | hmac (digest : HashAlg)
  | ctr (cipher : CipherAlg)
  deriving DecidableEq, Repr

def DrbgAlg.name : DrbgAlg → String
  | .hmac digest => "Hmac" ++ digest.name
  | .ctr cipher => "Ctr" ++ cipher.name

end CryptoPrimitives
