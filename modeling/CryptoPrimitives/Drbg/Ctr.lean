import CryptoPrimitives.Drbg.Basic
import CryptoPrimitives.Drbg.Derivation

/-!
# CTR_DRBG

The mechanism of SP 800-90A, 10.2, over a block cipher, with or without the derivation function.
The working state is a key, its schedule, and a counter block `v` that is incremented before every
encryption.
-/

set_option autoImplicit false

namespace CryptoPrimitives

def incrementLE : Bytes → Bytes
  | [] => []
  | b :: bs => if b + 1 = 0 then 0 :: incrementLE bs else (b + 1) :: bs

def nextCounter (v : Bytes) : Bytes := (incrementLE v.reverse).reverse

structure CtrDrbg (c : BlockCipher) where
  key : Bytes
  schedule : Schedule
  v : Bytes
  useDf : Bool
  counter : UInt64
  interval : UInt64
  strict : Bool
  live : Bool
  deriving DecidableEq

namespace CtrDrbg

variable {c : BlockCipher}

def seedLen (c : BlockCipher) : Nat := c.keyLen + blockLen

def toSeedLength (c : BlockCipher) (data : Bytes) : Except Fault Bytes :=
  if seedLen c < data.length then .error .invalidInput
  else .ok (data ++ Bytes.zeros (seedLen c - data.length))

def keystream (c : BlockCipher) (schedule : Schedule) : Nat → Bytes → Bytes × Bytes
  | 0, v => ([], v)
  | blocks + 1, v =>
    let v := nextCounter v
    let (rest, last) := keystream c schedule blocks v
    (c.run schedule v ++ rest, last)

def update (d : CtrDrbg c) (provided : Bytes) : CtrDrbg c :=
  let (stream, _) := keystream c d.schedule (ceilDiv (seedLen c) blockLen) d.v
  let temp := Bytes.xor (stream.take (seedLen c)) provided
  let key := temp.take c.keyLen
  { d with key, v := temp.drop c.keyLen, schedule := c.expand key }

/-- With the derivation function, what it makes of the entropy and the extra parts; without it, the
entropy combined with the padded direct part, the entropy having exactly the seed length. -/
def seedMaterial (c : BlockCipher) (useDf : Bool) (entropy : Bytes) (extra : List Bytes)
    (direct : Bytes) : Except Fault Bytes :=
  if useDf then c.derive (entropy :: extra) (seedLen c)
  else if entropy.length ≠ seedLen c then .error .invalidInput
  else do
    let padded ← toSeedLength c direct
    return Bytes.xor padded entropy

def additionalMaterial (d : CtrDrbg c) (additional : Bytes) : Except Fault Bytes :=
  if additional.isEmpty then .ok (Bytes.zeros (seedLen c))
  else if d.useDf then c.derive [additional] (seedLen c)
  else toSeedLength c additional

def create (c : BlockCipher) (useDf strict : Bool) (interval : UInt64)
    (entropy nonce personalization : Bytes) : Except Fault (CtrDrbg c) := do
  Drbg.requireEntropy strict c.keyLen entropy.length
  let key := Bytes.zeros c.keyLen
  let start : CtrDrbg c :=
    { key, schedule := c.expand key, v := Bytes.zeros blockLen, useDf, counter := 0, interval,
      strict, live := true }
  let seed ← seedMaterial c useDf entropy [nonce, personalization] personalization
  return { start.update seed with counter := 1 }

def generateCall (d : CtrDrbg c) (length : Nat) (additional : Bytes) :
    Except Fault (Bytes × CtrDrbg c) := do
  let conditioned ← d.additionalMaterial additional
  let d := if additional.isEmpty then d else d.update conditioned
  let (out, v) := keystream c d.schedule (ceilDiv length blockLen) d.v
  let drawn : CtrDrbg c := { d with v }
  let next := drawn.update conditioned
  return (out.take length, { next with counter := next.counter + 1 })

def generateCalls (additional : Bytes) :
    List Nat → CtrDrbg c → Except Fault Bytes × CtrDrbg c
  | [], d => (.ok [], d)
  | length :: lengths, d =>
    match d.generateCall length additional with
    | .error e => (.error e, d)
    | .ok (out, d) =>
      match generateCalls additional lengths d with
      | (.error e, d) => (.error e, d)
      | (.ok rest, d) => (.ok (out ++ rest), d)

def checkRequest (d : CtrDrbg c) (length : Nat) (additional : Bytes) : Except Fault Unit := do
  Drbg.requireLive d.live
  Drbg.requireLength d.strict length
  Drbg.requireInterval d.counter d.interval length
  if !d.useDf && seedLen c < additional.length then throw .invalidInput

def generate (d : CtrDrbg c) (length : Nat) (additional : Option Bytes) :
    Except Fault Bytes × CtrDrbg c :=
  let additional := additional.getD []
  match d.checkRequest length additional with
  | .error e => (.error e, d)
  | .ok () => generateCalls additional (Drbg.callLengths length) d

def admitSeed (d : CtrDrbg c) (entropy additional : Bytes) : Except Fault Bytes := do
  Drbg.requireLive d.live
  Drbg.requireEntropy d.strict c.keyLen entropy.length
  seedMaterial c d.useDf entropy [additional] additional

def reseed (d : CtrDrbg c) (entropy : Bytes) (additional : Option Bytes) :
    Except Fault Unit × CtrDrbg c :=
  match d.admitSeed entropy (additional.getD []) with
  | .error e => (.error e, d)
  | .ok seed => (.ok (), { d.update seed with counter := 1 })

def done (d : CtrDrbg c) : CtrDrbg c :=
  let key := Bytes.zeros d.key.length
  { d with key, v := Bytes.zeros d.v.length, schedule := c.expand key, counter := 0, live := false }

instance : Drbg (CtrDrbg c) where
  reseed := reseed
  generate := generate
  maxRequestSize := fun _ => Drbg.maxRequest
  done := done

end CtrDrbg

end CryptoPrimitives
