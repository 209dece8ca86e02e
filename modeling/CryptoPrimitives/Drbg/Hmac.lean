import CryptoPrimitives.Drbg.Basic
import CryptoPrimitives.Hash.Hmac

/-!
# HMAC_DRBG

The mechanism of SP 800-90A, 10.1.2, over a digest. The working state is an HMAC key `k` and a
chaining value `v`; every block of output is the next chaining value.
-/

set_option autoImplicit false

namespace CryptoPrimitives

structure HmacDrbg (H : HashFunction) where
  k : Bytes
  v : Bytes
  counter : UInt64
  interval : UInt64
  strict : Bool
  live : Bool
  deriving DecidableEq, Repr

namespace HmacDrbg

variable {H : HashFunction}

def advance (d : HmacDrbg H) : HmacDrbg H := { d with v := Hmac.macParts H d.k [d.v] }

def mix (d : HmacDrbg H) (round : UInt8) (data : List Bytes) : HmacDrbg H :=
  advance { d with k := Hmac.macParts H d.k ([d.v, [round]] ++ data) }

def update (d : HmacDrbg H) (data : List Bytes) : HmacDrbg H :=
  let d := d.mix 0x00 data
  if data.any (fun part => !part.isEmpty) then d.mix 0x01 data else d

def create (H : HashFunction) (strict : Bool) (interval : UInt64)
    (entropy nonce personalization : Bytes) : Except Fault (HmacDrbg H) := do
  Drbg.requireEntropy strict H.securityStrength entropy.length
  let start : HmacDrbg H :=
    { k := Bytes.zeros H.outputSize, v := List.replicate H.outputSize 0x01,
      counter := 0, interval, strict, live := true }
  return { start.update [entropy, nonce, personalization] with counter := 1 }

def stream : Nat → HmacDrbg H → Bytes × HmacDrbg H
  | 0, d => ([], d)
  | blocks + 1, d =>
    let d := d.advance
    let (rest, next) := stream blocks d
    (d.v ++ rest, next)

def generateCall (d : HmacDrbg H) (length : Nat) (additional : Bytes) : Bytes × HmacDrbg H :=
  let d := if additional.isEmpty then d else d.update [additional]
  let (out, d) := stream (ceilDiv length d.v.length) d
  let d := d.update [additional]
  (out.take length, { d with counter := d.counter + 1 })

def generateCalls (additional : Bytes) : List Nat → HmacDrbg H → Bytes × HmacDrbg H
  | [], d => ([], d)
  | length :: lengths, d =>
    let (out, d) := d.generateCall length additional
    let (rest, d) := generateCalls additional lengths d
    (out ++ rest, d)

def checkRequest (d : HmacDrbg H) (length : Nat) : Except Fault Unit := do
  Drbg.requireLive d.live
  Drbg.requireLength d.strict length
  Drbg.requireInterval d.counter d.interval length

def generate (d : HmacDrbg H) (length : Nat) (additional : Option Bytes) :
    Except Fault Bytes × HmacDrbg H :=
  match d.checkRequest length with
  | .error e => (.error e, d)
  | .ok () =>
    let (out, d) := generateCalls (additional.getD []) (Drbg.callLengths length) d
    (.ok out, d)

def admitSeed (d : HmacDrbg H) (entropy : Bytes) : Except Fault Unit := do
  Drbg.requireLive d.live
  Drbg.requireEntropy d.strict H.securityStrength entropy.length

def reseed (d : HmacDrbg H) (entropy : Bytes) (additional : Option Bytes) :
    Except Fault Unit × HmacDrbg H :=
  match d.admitSeed entropy with
  | .error e => (.error e, d)
  | .ok () => (.ok (), { d.update [entropy, additional.getD []] with counter := 1 })

def done (d : HmacDrbg H) : HmacDrbg H := { d with k := [], v := [], counter := 0, live := false }

instance : Drbg (HmacDrbg H) where
  reseed := reseed
  generate := generate
  maxRequestSize := fun _ => Drbg.maxRequest
  done := done

end HmacDrbg

end CryptoPrimitives
