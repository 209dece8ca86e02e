import CryptoPrimitives.BigInt.Basic
import CryptoPrimitives.Units.Division

/-!
# Numerals in radix 2 to 36

A numeral is an optional sign and one or more digits, `0` to `9` and then letters of either case.
Digits are gathered into chunks, as many as fit a limb, and the chunks are folded into the
magnitude one multiplication each. Printing divides by the same chunk base.
-/

set_option autoImplicit false

namespace CryptoPrimitives

namespace Radix

def minimum : Nat := 2

def maximum : Nat := 36

def check (radix : Nat) : Except Fault Unit :=
  if minimum ≤ radix ∧ radix ≤ maximum then .ok () else .error (.invalidRadix radix)

def digitValue? (radix : Nat) (ch : Char) : Option Nat :=
  let code := ch.toNat
  let value :=
    if 48 ≤ code ∧ code ≤ 57 then code - 48
    else if 97 ≤ code ∧ code ≤ 122 then code - 87
    else if 65 ≤ code ∧ code ≤ 90 then code - 55
    else radix
  if value < radix then some value else none

def digitChar (value : Nat) : Char :=
  if value < 10 then Char.ofNat (48 + value) else Char.ofNat (87 + value)

def growChunk (radix : Nat) : Nat → Nat × Limb → Nat × Limb
  | 0, chunk => chunk
  | rounds + 1, (k, power) =>
    if power.toNat * radix < Limb.base then
      growChunk radix rounds (k + 1, power * radix.toUInt64)
    else (k, power)

def chunkBase (radix : Nat) : Nat × Limb :=
  -- No power past the 63rd fits a limb, whatever the radix.
  growChunk radix 64 (1, radix.toUInt64)

def limbPower (radix : Limb) : Nat → Limb
  | 0 => 1
  | k + 1 => limbPower radix k * radix

/-! ## Reading -/

structure Accumulator where
  units : Units
  chunk : Limb
  count : Nat
  deriving DecidableEq, Repr

namespace Accumulator

variable [Rendition]

def push (radix : Nat) (a : Accumulator) (digit : Nat) : Accumulator :=
  let (k, base) := chunkBase radix
  let chunk := a.chunk * radix.toUInt64 + digit.toUInt64
  if a.count + 1 = k then ⟨Units.scaleAdd a.units base chunk, 0, 0⟩
  else ⟨a.units, chunk, a.count + 1⟩

def flush (radix : Nat) (a : Accumulator) : Units :=
  if a.count = 0 then a.units
  else Units.scaleAdd a.units (limbPower radix.toUInt64 a.count) a.chunk

end Accumulator

def readDigits [Rendition] (radix : Nat) :
    List Char → Nat → Accumulator → Except Fault Accumulator
  | [], _, a => .ok a
  | ch :: rest, pos, a =>
    match digitValue? radix ch with
    | none => .error (.invalidDigit ch pos)
    | some digit => readDigits radix rest (pos + ch.utf8Size) (a.push radix digit)

def splitSign : List Char → Bool × Nat × List Char
  | '-' :: rest => (true, 1, rest)
  | '+' :: rest => (false, 1, rest)
  | digits => (false, 0, digits)

def read [Rendition] (text : List Char) (radix : Nat) : Except Fault (Bool × Units) := do
  check radix
  let (negative, start, digits) := splitSign text
  if digits.isEmpty then throw .invalidInput
  let a ← readDigits radix digits start ⟨[], 0, 0⟩
  return (negative, a.flush radix)

/-! ## Printing -/

def chunkDigits (radix : Limb) (last : Bool) : Nat → Limb → List Char
  | 0, _ => []
  | k + 1, rem =>
    let digit := digitChar (rem % radix).toNat
    let rest := rem / radix
    if last && rest == 0 then [digit] else digit :: chunkDigits radix last k rest

def unitsDigits (radix : Nat) : Nat → Units → List Char
  | 0, _ => []
  | rounds + 1, us =>
    if us.isEmpty then []
    else
      let (k, base) := chunkBase radix
      let (q, rem) := Units.divLimb us base
      let q := q.take (Units.significant q)
      chunkDigits radix.toUInt64 q.isEmpty k rem ++ unitsDigits radix rounds q

end Radix

namespace BigInt

def parse [Rendition] [Supply] (text : String) (radix : Nat) (alloc : Allocator) :
    Attempt BigInt := do
  let (negative, limbs) ← ExceptT.mk (pure (Radix.read text.toList radix))
  let r ← (empty alloc).write limbs
  return r.withSign negative

def print (x : BigInt) (radix : Nat) : Except Fault String := do
  Radix.check radix
  if x.isZero then return "0"
  let digits := Radix.unitsDigits radix (x.bitLength + 1) x.units
  return String.ofList ((if x.negative then ['-'] else []) ++ digits.reverse)

def decimal (x : BigInt) : String := (x.print 10).toOption.getD ""

end BigInt

end CryptoPrimitives
