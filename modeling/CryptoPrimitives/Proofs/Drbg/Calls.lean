import CryptoPrimitives.Proofs.Drbg.Refinement

/-!
# Generators answering calls

Calls in a row with their answers, for a generator of any kind, and how a long request is cut into
calls. A machine accounts for a transcript if it gives the same answers to the accepted calls.
-/

set_option autoImplicit false

namespace CryptoPrimitives

abbrev DrbgCall := CtrCall

namespace Drbg

section

variable {δ : Type} [Drbg δ]

def answer (d : δ) : DrbgCall → Except Fault Bytes × δ
  | .reseed entropy additional =>
    ((Drbg.reseed d entropy additional).1.map fun _ => [], (Drbg.reseed d entropy additional).2)
  | .generate length additional => Drbg.generate d length additional

def transcript : List DrbgCall → δ → Transcript × δ
  | [], d => ([], d)
  | call :: calls, d =>
    let rest := transcript calls (answer d call).2
    ((call, (answer d call).1) :: rest.1, rest.2)

inductive Reachable (Made : δ → Prop) : δ → Prop
  | made {d : δ} (h : Made d) : Reachable Made d
  | answer {d : δ} (call : DrbgCall) (h : Reachable Made d) : Reachable Made (answer d call).2
  | done {d : δ} (h : Reachable Made d) : Reachable Made (Drbg.done d)

def Fills (d : δ) : Prop :=
  ∀ d', Reachable (· = d) d' → ∀ (length : Nat) (additional : Option Bytes) (bytes : Bytes),
    (Drbg.generate d' length additional).1 = .ok bytes → bytes.length = length

end

inductive Accounted {σ : Type} (machine : DrbgCall → σ → Bytes × σ) : σ → Transcript → σ → Prop
  | nil (s : σ) : Accounted machine s [] s
  | refused {s s' : σ} {rest : Transcript} (call : DrbgCall) (e : Fault)
      (h : Accounted machine s rest s') : Accounted machine s ((call, .error e) :: rest) s'
  | accepted {s s' : σ} {rest : Transcript} (call : DrbgCall)
      (h : Accounted machine (machine call s).2 rest s') :
      Accounted machine s ((call, .ok (machine call s).1) :: rest) s'

/-! ## The calls of a request -/

theorem callLengths_sum (length : Nat) : (callLengths length).sum = length := by
  unfold callLengths
  have hdiv := Nat.div_add_mod length maxRequest
  split
  · rename_i hnone
    rw [hnone, List.sum_singleton]
  rw [List.sum_append, List.sum_replicate_nat, Nat.mul_comm]
  split
  · rename_i hwhole
    rw [hwhole] at hdiv
    exact hdiv
  · rw [List.sum_singleton]
    exact hdiv

theorem length_callLengths (length : Nat) : (callLengths length).length = calls length := by
  unfold callLengths calls ceilDiv maxRequest
  split
  · rename_i hnone
    rw [hnone]
    rfl
  rw [List.length_append, List.length_replicate]
  split
  · simp only [List.length_nil]
    omega
  · simp only [List.length_singleton]
    omega

theorem length_le_calls (length : Nat) : length ≤ maxRequest * calls length := by
  unfold calls ceilDiv maxRequest
  omega

end Drbg

end CryptoPrimitives
