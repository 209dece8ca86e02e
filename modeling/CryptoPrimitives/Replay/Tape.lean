import CryptoPrimitives.BigInt.Random

/-!
# A tape of random bytes

A random source that hands out given bytes in order. A request for more than is left fails and
takes nothing. The lengths asked for are kept, the latest first.
-/

set_option autoImplicit false

namespace CryptoPrimitives.Replay

structure Tape where
  left : Bytes
  asked : List Nat
  deriving DecidableEq, Repr

namespace Tape

def fill : Fill (StateM Tape) := fun length tape =>
  let asked := length :: tape.asked
  if tape.left.length < length then (.error .entropySourceFailure, { tape with asked })
  else (.ok (tape.left.take length), ⟨tape.left.drop length, asked⟩)

end Tape

end CryptoPrimitives.Replay
