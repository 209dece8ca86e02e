/-!
# Faults

One constructor per cause of a refused operation; the wording is `Fault.message` alone.
-/

set_option autoImplicit false

namespace CryptoPrimitives

inductive Fault
  | invalidInput
  | bufferTooSmall (need got : Nat)
  | invalidRadix (radix : Nat)
  | invalidDigit (ch : Char) (pos : Nat)
  | divisionByZero
  | noInverse
  | invalidModulus
  | randomnessFailed
  | entropySourceFailure
  | entropyRctFailure
  | entropyAptFailure
  | drbgReseedRequired
  | drbgInvalidState
  | drbgRequestTooLarge (max got : Nat)
  deriving DecidableEq, Repr

def quotedChar (ch : Char) : String :=
  let body :=
    match ch.toNat with
    | 0 => "\\0"
    | 9 => "\\t"
    | 10 => "\\n"
    | 13 => "\\r"
    | 39 => "\\'"
    | 92 => "\\\\"
    | code =>
      if code < 32 ∨ code = 127 then
        "\\u\x7b" ++ String.ofList (Nat.toDigits 16 code) ++ "\x7d"
      else ch.toString
  "'" ++ body ++ "'"

namespace Fault

def message : Fault → String
  | invalidInput => "invalid input"
  | bufferTooSmall need got => s!"buffer length not enough: need {need}, got {got}"
  | invalidRadix radix => s!"big number: unsupported radix {radix}"
  | invalidDigit ch pos => s!"big number: invalid digit {quotedChar ch} at position {pos}"
  | divisionByZero => "big number: division by zero"
  | noInverse => "big number: no modular inverse"
  | invalidModulus => "big number: modulus not supported by this context"
  | randomnessFailed => "big number: random generation failed"
  | entropySourceFailure => "entropy: source failed to deliver entropy"
  | entropyRctFailure => "entropy: repetition count test failed"
  | entropyAptFailure => "entropy: adaptive proportion test failed"
  | drbgReseedRequired => "drbg: reseed required"
  | drbgInvalidState => "drbg: invalid state"
  | drbgRequestTooLarge max got => s!"drbg: request of {got} bytes exceeds maximum of {max}"

end Fault

end CryptoPrimitives
