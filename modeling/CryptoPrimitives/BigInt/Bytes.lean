import CryptoPrimitives.BigInt.Basic
import CryptoPrimitives.Bytes

/-!
# Numbers as big-endian bytes
-/

set_option autoImplicit false

namespace CryptoPrimitives

namespace Limb

def ofBytesLE (bytes : Bytes) : Limb := bytes.foldr (fun b acc => (acc <<< 8) ||| b.toUInt64) 0

def toBytesLE (u : Limb) : Bytes :=
  (List.range 8).map fun i => (u >>> (8 * i).toUInt64).toUInt8

end Limb

namespace BigInt

def ofBytesBE [Supply] (bytes : Bytes) : Booked BigInt :=
  ofUnits ((Bytes.chunks 8 bytes.reverse).map Limb.ofBytesLE)

def byteLength (x : BigInt) : Nat := ceilDiv x.bitLength 8

def lowBytesBE (x : BigInt) (n : Nat) : Bytes :=
  ((x.units.flatMap Limb.toBytesLE).take n).reverse

def toBytesBE (x : BigInt) : Bytes :=
  if x.byteLength = 0 then [0] else x.lowBytesBE x.byteLength

def toBytesBEPadded (x : BigInt) (length : Nat) : Except Fault Bytes :=
  let need := x.byteLength
  if length < need then .error (.bufferTooSmall need length)
  else .ok (Bytes.zeros (length - need) ++ x.lowBytesBE need)

def debugText (x : BigInt) : String :=
  "BigInt(" ++ (if x.negative then "-" else "") ++ "0x" ++ Bytes.toHex x.toBytesBE ++ ")"

end BigInt

end CryptoPrimitives
