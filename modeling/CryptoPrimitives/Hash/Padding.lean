import CryptoPrimitives.Bytes

/-!
# Padding of hashed messages

A message is closed by a one bit, zero bits up to the end of a block, and its length in bits at the
very end of that block.
-/

set_option autoImplicit false

namespace CryptoPrimitives.Hash

def bitCount (width length : Nat) : Bytes :=
  Bytes.zeros (width - 8) ++ Bytes.be64 (8 * length).toUInt64

def pad (blockSize width : Nat) (message : Bytes) : Bytes :=
  let filled := (message.length + 1 + width) % blockSize
  let gap := (blockSize - filled) % blockSize
  message ++ 0x80 :: Bytes.zeros gap ++ bitCount width message.length

end CryptoPrimitives.Hash
