/-!
# Byte strings

Bytes are lists. A buffer handed to a writer keeps its length: `overlay` puts the written bytes
over its front and leaves the rest.
-/

set_option autoImplicit false

namespace CryptoPrimitives

abbrev Bytes := List UInt8

def ceilDiv (a b : Nat) : Nat := (a + b - 1) / b

namespace Bytes

def zeros (n : Nat) : Bytes := List.replicate n 0

def xor (a b : Bytes) : Bytes := List.zipWith (· ^^^ ·) a b

def overlay (written buffer : Bytes) : Bytes :=
  written.take buffer.length ++ buffer.drop written.length

def chunksFrom (size : Nat) : Nat → Bytes → List Bytes
  | 0, _ => []
  | _ + 1, [] => []
  | fuel + 1, b :: bs => (b :: bs).take size :: chunksFrom size fuel ((b :: bs).drop size)

def chunks (size : Nat) (bytes : Bytes) : List Bytes := chunksFrom size bytes.length bytes

def be32 (n : UInt32) : Bytes :=
  [(n >>> 24).toUInt8, (n >>> 16).toUInt8, (n >>> 8).toUInt8, n.toUInt8]

def be64 (n : UInt64) : Bytes :=
  be32 (n >>> 32).toUInt32 ++ be32 n.toUInt32

def value (bytes : Bytes) : Nat := bytes.foldl (fun acc b => 256 * acc + b.toNat) 0

def hexDigit (d : UInt8) : Char := Nat.digitChar d.toNat

def toHex (bytes : Bytes) : String :=
  String.ofList (bytes.flatMap fun (b : UInt8) => [hexDigit (b >>> 4), hexDigit (b &&& 15)])

@[simp] theorem length_overlay (written buffer : Bytes) :
    (overlay written buffer).length = buffer.length := by
  simp [overlay]; omega

@[simp] theorem length_zeros (n : Nat) : (zeros n).length = n := by simp [zeros]

end Bytes

end CryptoPrimitives
