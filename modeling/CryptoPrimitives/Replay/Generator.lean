import CryptoPrimitives.Drbg.Basic

/-!
# A scripted generator

A generator that answers its calls from two lists, with success past their ends, and keeps the
calls made, the latest first. Its output counts up in steps of 16 from a byte that every successful
reseed raises by one.
-/

set_option autoImplicit false

namespace CryptoPrimitives.Replay

inductive Call
  | generate (length : Nat) (additional : Option Bytes)
  | reseed (entropy : Bytes) (additional : Option Bytes)
  | done
  deriving DecidableEq, Repr

structure ScriptedDrbg where
  first : UInt8
  largest : Nat
  generateFailures : List (Option Fault)
  reseedFailures : List (Option Fault)
  calls : List Call
  deriving DecidableEq, Repr

namespace ScriptedDrbg

def generate (d : ScriptedDrbg) (length : Nat) (additional : Option Bytes) :
    Except Fault Bytes × ScriptedDrbg :=
  let next :=
    { d with
      generateFailures := d.generateFailures.tail
      calls := .generate length additional :: d.calls }
  match d.generateFailures.headD none with
  | some e => (.error e, next)
  | none => (.ok ((List.range length).map fun i => d.first + 16 * i.toUInt8), next)

def reseed (d : ScriptedDrbg) (entropy : Bytes) (additional : Option Bytes) :
    Except Fault Unit × ScriptedDrbg :=
  let next :=
    { d with
      reseedFailures := d.reseedFailures.tail
      calls := .reseed entropy additional :: d.calls }
  match d.reseedFailures.headD none with
  | some e => (.error e, next)
  | none => (.ok (), { next with first := d.first + 1 })

instance : Drbg ScriptedDrbg where
  reseed := reseed
  generate := generate
  maxRequestSize d := d.largest
  done d := { d with calls := .done :: d.calls }

end ScriptedDrbg

end CryptoPrimitives.Replay
