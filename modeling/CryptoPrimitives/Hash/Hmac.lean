import CryptoPrimitives.Hash.Digest

/-!
# HMAC

A context keyed once. The key, zero-padded to a block or hashed first if it is longer, is fed to an
inner and an outer hash under two masks; the inner hash takes the message and the outer one its
digest. A finish that the outer hash refuses for want of room leaves the inner hash bare and the
outer one with the inner digest already fed.
-/

set_option autoImplicit false

namespace CryptoPrimitives

structure Hmac (H : HashFunction) where
  inner : Digest H
  outer : Digest H
  keyBlock : Bytes
  deriving DecidableEq, Repr

namespace Hmac

variable {H : HashFunction}

def innerMask : UInt8 := 0x36

def outerMask : UInt8 := 0x5c

def blockOfKey (H : HashFunction) (key : Bytes) : Bytes :=
  let short := if H.blockSize < key.length then H.hash key else key
  short ++ Bytes.zeros (H.blockSize - short.length)

def masked (mask : UInt8) (keyBlock : Bytes) : Bytes := keyBlock.map (· ^^^ mask)

def reset (h : Hmac H) : Hmac H :=
  { h with
    inner := h.inner.reset.update (masked innerMask h.keyBlock)
    outer := h.outer.reset.update (masked outerMask h.keyBlock) }

def create (H : HashFunction) (key : Bytes) : Hmac H :=
  reset ⟨.fresh H, .fresh H, blockOfKey H key⟩

def outputSize (_ : Hmac H) : Nat := H.outputSize

def update (h : Hmac H) (data : Bytes) : Hmac H := { h with inner := h.inner.update data }

def finish (h : Hmac H) (out : Bytes) : Finished (Hmac H) :=
  let inner := h.inner.finish (Bytes.zeros h.outputSize)
  match inner.outcome with
  | .error e => ⟨.error e, out, { h with inner := inner.context }⟩
  | .ok () =>
    let outer := (h.outer.update inner.out).finish out
    let next := { h with inner := inner.context, outer := outer.context }
    match outer.outcome with
    | .error e => ⟨.error e, outer.out, next⟩
    | .ok () => ⟨.ok (), outer.out, next.reset⟩

def writeMac (H : HashFunction) (key : Bytes) (parts : List Bytes) (out : Bytes) :
    Except Fault Unit × Bytes :=
  let f := (parts.foldl update (create H key)).finish out
  (f.outcome, f.out)

def macParts (H : HashFunction) (key : Bytes) (parts : List Bytes) : Bytes :=
  (writeMac H key parts (Bytes.zeros H.outputSize)).2

def mac (H : HashFunction) (key data : Bytes) : Bytes := macParts H key [data]

end Hmac

end CryptoPrimitives
