import CryptoPrimitives.Csprng.Policy

/-!
# A scripted policy

A policy with given answers, which counts what it was asked and told.
-/

set_option autoImplicit false

namespace CryptoPrimitives.Replay

structure AnswerList where
  answers : List Bool
  asked : Nat
  completions : Nat
  deriving DecidableEq, Repr

def answerPolicy (answers : List Bool) : Policy.Custom AnswerList where
  memory := ⟨answers, 0, 0⟩
  need m := (m.answers.headD false, { m with answers := m.answers.tail, asked := m.asked + 1 })
  complete m := { m with completions := m.completions + 1 }

end CryptoPrimitives.Replay
