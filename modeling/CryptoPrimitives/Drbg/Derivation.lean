import CryptoPrimitives.Cipher.BlockCipher

/-!
# The block cipher derivation function

Block_Cipher_df of SP 800-90A, 10.3.2: input of any length is condensed to a given number of bytes
under a fixed key, and the result is drawn out under a key taken from it.
-/

set_option autoImplicit false

namespace CryptoPrimitives.BlockCipher

def chain (c : BlockCipher) (schedule : Schedule) (blocks : List Bytes) : Bytes :=
  blocks.foldl (fun chaining block => c.run schedule (Bytes.xor chaining block))
    (Bytes.zeros blockLen)

def derivationInput (input : Bytes) (outputLen : Nat) : Bytes :=
  let marked := Bytes.be32 input.length.toUInt32 ++ Bytes.be32 outputLen.toUInt32 ++ input ++ [0x80]
  marked ++ Bytes.zeros ((blockLen - marked.length % blockLen) % blockLen)

def condense (c : BlockCipher) (s : Bytes) : Bytes :=
  let schedule := c.expand ((List.range c.keyLen).map Nat.toUInt8)
  (List.range (ceilDiv (c.keyLen + blockLen) blockLen)).flatMap fun i =>
    c.chain schedule ((Bytes.be32 i.toUInt32 ++ Bytes.zeros 12) :: Bytes.chunks blockLen s)

def drawOut (c : BlockCipher) (schedule : Schedule) : Nat → Bytes → Bytes
  | 0, _ => []
  | blocks + 1, x =>
    let y := c.run schedule x
    y ++ drawOut c schedule blocks y

def derive (c : BlockCipher) (parts : List Bytes) (outputLen : Nat) : Except Fault Bytes :=
  let input := parts.flatten
  if UInt32.size ≤ input.length ∨ UInt32.size ≤ outputLen then .error .invalidInput
  else
    let temp := c.condense (derivationInput input outputLen)
    let schedule := c.expand (temp.take c.keyLen)
    let x := (temp.drop c.keyLen).take blockLen
    .ok ((c.drawOut schedule (ceilDiv outputLen blockLen) x).take outputLen)

end CryptoPrimitives.BlockCipher
