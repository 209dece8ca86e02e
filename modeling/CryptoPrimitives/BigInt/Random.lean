import CryptoPrimitives.BigInt.Bytes
import CryptoPrimitives.BigInt.Order

/-!
# Random numbers

A source hands out as many bytes as it is asked for, or fails, in a monad of its own. Sampling below
a bound draws candidates of the bound's bit length until one is below it; how many draws may be made
is an argument, and `none` says that they were used up.
-/

set_option autoImplicit false

namespace CryptoPrimitives

abbrev Fill (m : Type → Type) := Nat → m (Except Fault Bytes)

namespace BigInt

def clearExcess (bits : Nat) : Bytes → Bytes
  | [] => []
  | b :: bs => (b &&& (0xff >>> (8 * (bs.length + 1) - bits).toUInt8)) :: bs

section Sampling

variable [Supply] {m : Type → Type} [Monad m]

def drawBytes (fill : Fill m) (bits : Nat) : m (Except Fault Bytes) := do
  match ← fill (ceilDiv bits 8) with
  | .error _ => return .error .randomnessFailed
  | .ok bytes => return .ok (clearExcess bits bytes)

def withEnds (bits : Nat) (odd : Bool) (bytes : Bytes) : BigInt :=
  let x := ((ofBytesBE bytes).val.setBit (bits - 1)).val
  if odd then (x.setBit 0).val else x

def randomBits (fill : Fill m) (bits : Nat) (odd : Bool) : m (Except Fault BigInt) := do
  if bits = 0 then return .ok zero
  match ← drawBytes fill bits with
  | .error e => return .error e
  | .ok bytes => return .ok (withEnds bits odd bytes)

def drawBelow (fill : Fill m) (upper : BigInt) : Nat → m (Except Fault (Option BigInt))
  | 0 => return .ok none
  | draws + 1 => do
    match ← drawBytes fill upper.bitLength with
    | .error e => return .error e
    | .ok bytes =>
      let candidate := (ofBytesBE bytes).val
      if candidate.compare upper = .lt then return .ok (some candidate)
      else drawBelow fill upper draws

def randomBelow (fill : Fill m) (draws : Nat) (upper : BigInt) :
    m (Except Fault (Option BigInt)) := do
  if upper.isZero || upper.negative then return .error .invalidInput
  drawBelow fill upper draws

def drawNonzero (fill : Fill m) (draws : Nat) (upper : BigInt) :
    Nat → m (Except Fault (Option BigInt))
  | 0 => return .ok none
  | rounds + 1 => do
    match ← randomBelow fill draws upper with
    | .error e => return .error e
    | .ok none => return .ok none
    | .ok (some candidate) =>
      if candidate.isZero then drawNonzero fill draws upper rounds
      else return .ok (some candidate)

def randomRange (fill : Fill m) (draws : Nat) (upper : BigInt) :
    m (Except Fault (Option BigInt)) := do
  if upper.isZero || upper.isOne || upper.negative then return .error .invalidInput
  drawNonzero fill draws upper draws

end Sampling

end BigInt

end CryptoPrimitives
