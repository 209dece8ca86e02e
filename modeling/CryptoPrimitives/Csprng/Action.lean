import CryptoPrimitives.Fault
import CryptoPrimitives.LogLine
import CryptoPrimitives.Recorded

/-!
# Actions of a generator manager

An action runs on a state and gives a result, the state afterwards and the log lines written on the
way. It may halt: the state that it then leaves is fatal, and what would have followed is not done.
-/

set_option autoImplicit false

namespace CryptoPrimitives

inductive Halt
  | entered (cause : Fault)
  | found
  deriving DecidableEq, Repr

def Halt.message : Halt → String
  | entered cause => "csprng: fatal state (" ++ cause.message ++ ")"
  | found => "csprng: generator is in the fatal state"

structure Step (σ α : Type) where
  result : Except Halt α
  state : σ
  log : List LogLine

def Action (σ α : Type) := σ → Step σ α

namespace Action

variable {σ α β : Type}

def bind (x : Action σ α) (f : α → Action σ β) : Action σ β := fun s =>
  match x s with
  | ⟨.error h, s, log⟩ => ⟨.error h, s, log⟩
  | ⟨.ok a, s, log⟩ =>
    let next := f a s
    ⟨next.result, next.state, log ++ next.log⟩

instance : Monad (Action σ) where
  pure a := fun s => ⟨.ok a, s, []⟩
  bind := bind

def get : Action σ σ := fun s => ⟨.ok s, s, []⟩

def modify (f : σ → σ) : Action σ Unit := fun s => ⟨.ok (), f s, []⟩

def query (f : σ → α × σ) : Action σ α := fun s => ⟨.ok (f s).1, (f s).2, []⟩

def recorded (f : σ → Recorded LogLine (α × σ)) : Action σ α := fun s =>
  let r := f s
  ⟨.ok r.val.1, r.val.2, r.entries⟩

def note (level : LogLevel) (text : String) : Action σ Unit := fun s => ⟨.ok (), s, [⟨level, text⟩]⟩

def halt (h : Halt) : Action σ α := fun s => ⟨.error h, s, []⟩

end Action

end CryptoPrimitives
