import CryptoPrimitives.Drbg.Ctr
import CryptoPrimitives.Drbg.Hmac
import CryptoPrimitives.LogLine
import CryptoPrimitives.Recorded

/-!
# Choosing a generator

A mechanism is chosen with its primitive and its limits; instantiating it is the only way to a
built-in generator, so none gives output before it has been seeded.
-/

set_option autoImplicit false

namespace CryptoPrimitives

inductive Mechanism
  | hmac (digest : HashAlg) (strict : Bool) (interval : UInt64)
  | ctr (cipher : CipherAlg) (useDf strict : Bool) (interval : UInt64)
  deriving DecidableEq, Repr

inductive Generator
  | hmac (alg : HashAlg) (d : HmacDrbg alg.function)
  | ctr (alg : CipherAlg) (d : CtrDrbg alg.blockCipher)

namespace Generator

def reseed : Generator → Bytes → Option Bytes → Except Fault Unit × Generator
  | hmac alg d, entropy, additional =>
    let (answer, d) := d.reseed entropy additional
    (answer, hmac alg d)
  | ctr alg d, entropy, additional =>
    let (answer, d) := d.reseed entropy additional
    (answer, ctr alg d)

def generate : Generator → Nat → Option Bytes → Except Fault Bytes × Generator
  | hmac alg d, length, additional =>
    let (answer, d) := d.generate length additional
    (answer, hmac alg d)
  | ctr alg d, length, additional =>
    let (answer, d) := d.generate length additional
    (answer, ctr alg d)

def done : Generator → Generator
  | hmac alg d => hmac alg d.done
  | ctr alg d => ctr alg d.done

instance : Drbg Generator where
  reseed := reseed
  generate := generate
  maxRequestSize := fun _ => Drbg.maxRequest
  done := done

end Generator

namespace Mechanism

def default : Mechanism := .ctr .aes256 true false Drbg.defaultReseedInterval

instance : Inhabited Mechanism := ⟨default⟩

def ofDigest (digest : HashAlg) : Mechanism := .hmac digest false Drbg.defaultReseedInterval

def ofCipher (cipher : CipherAlg) (useDf : Bool) : Mechanism :=
  .ctr cipher useDf false Drbg.defaultReseedInterval

def withStrict (on : Bool) : Mechanism → Mechanism
  | hmac digest _ interval => hmac digest on interval
  | ctr cipher useDf _ interval => ctr cipher useDf on interval

def withInterval (interval : UInt64) : Mechanism → Mechanism
  | hmac digest strict _ => hmac digest strict interval
  | ctr cipher useDf strict _ => ctr cipher useDf strict interval

def reseedInterval : Mechanism → UInt64
  | hmac _ _ interval => interval
  | ctr _ _ _ interval => interval

def alg : Mechanism → DrbgAlg
  | hmac digest _ _ => .hmac digest
  | ctr cipher _ _ _ => .ctr cipher

def securityStrength : Mechanism → Nat
  | hmac digest _ _ => digest.securityStrength
  | ctr cipher _ _ _ => cipher.keyLen

def entropyLen : Mechanism → Nat
  | ctr cipher false _ _ => cipher.keyLen + cipher.blockLen
  | m => m.securityStrength

def debugText : Mechanism → String
  | hmac digest strict interval =>
    "Hmac \x7b digest: " ++ digest.name ++ ", strict_fips: " ++ toString strict ++
      ", reseed_interval: " ++ toString interval.toNat ++ " \x7d"
  | ctr cipher useDf strict interval =>
    "Ctr \x7b cipher: " ++ cipher.name ++ ", use_df: " ++ toString useDf ++ ", strict_fips: " ++
      toString strict ++ ", reseed_interval: " ++ toString interval.toNat ++ " \x7d"

def build (m : Mechanism) (entropy nonce personalization : Bytes) :
    Except Fault Generator :=
  match m with
  | hmac digest strict interval =>
    (HmacDrbg.create digest.function strict interval entropy nonce personalization).map
      (.hmac digest)
  | ctr cipher useDf strict interval =>
    (CtrDrbg.create cipher.blockCipher useDf strict interval entropy nonce personalization).map
      (.ctr cipher)

def instantiate (m : Mechanism) (entropy nonce personalization : Bytes) :
    Recorded LogLine (Except Fault Generator) := do
  if m.reseedInterval = 0 then return .error .invalidInput
  match m.build entropy nonce personalization with
  | .error e => return .error e
  | .ok g =>
    Recorded.note ⟨.debug, "instantiated " ++ m.alg.name⟩
    return .ok g

end Mechanism

end CryptoPrimitives
