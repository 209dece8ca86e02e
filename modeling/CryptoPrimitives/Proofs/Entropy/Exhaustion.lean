import CryptoPrimitives.Proofs.Entropy.Attempts

/-!
# When a collection fails

A collection ends with a full buffer, or its source fails as often as there are attempts.
-/

set_option autoImplicit false

namespace CryptoPrimitives

variable {ε : Type} [EntropySource ε]

namespace Collection

inductive Fails : Nat → Bytes → ε → Prop
  | none (rest : Bytes) (source : ε) : Fails 0 rest source
  | delivered {attempts n : Nat} {rest : Bytes} {source : ε} (hrest : rest ≠ [])
      (h : (EntropySource.read source rest).val.1.outcome = .ok (n + 1))
      (hlater : Fails attempts
        (((EntropySource.read source rest).val.1.buffer rest).drop (n + 1))
        (EntropySource.read source rest).val.2) :
      Fails attempts rest source
  | failed {attempts : Nat} {rest : Bytes} {source : ε} (hrest : rest ≠ [])
      (h : ∀ n, (EntropySource.read source rest).val.1.outcome ≠ .ok (n + 1))
      (hlater : Fails attempts ((EntropySource.read source rest).val.1.buffer rest)
        (EntropySource.read source rest).val.2) :
      Fails (attempts + 1) rest source

def Ends (attempts : Nat) (filled rest : Bytes) (source : ε) (c : Collected ε) : Prop :=
  (c.outcome = .ok () ∧ c.buffer.length = filled.length + rest.length) ∨
    (c.outcome = .error .entropySourceFailure ∧ Fails attempts rest source)

theorem Asked.fails {source source' : ε} {rest rest' : Bytes} {attempts : List EntropyRead}
    (h : Asked source rest attempts source' rest') :
    Fails (attempts.countP EntropyRead.failed) rest source := by
  induction h with
  | done source rest => exact .none rest source
  | @more source source' rest rest' attempts hrest hlater ih =>
    cases hfailed : (attempt source rest).failed with
    | true =>
      rw [List.countP_cons_of_pos hfailed]
      rw [EntropyRead.missing_failed hfailed] at ih
      exact .failed hrest (EntropyRead.outcome_failed hfailed) ih
    | false =>
      obtain ⟨n, houtcome, hclaimed⟩ := EntropyRead.outcome_delivered hfailed
      rw [List.countP_cons_of_neg (by rw [hfailed]; exact Bool.false_ne_true)]
      rw [EntropyRead.missing, hclaimed] at ih
      exact .delivered hrest houtcome ih

theorem loop_ends (maxRetry reads failures attempts : Nat) (filled rest : Bytes) (source : ε)
    (hattempts : failures + (attempts + 1) = max maxRetry 1)
    (hreads : rest.length + (attempts + 1) < reads) :
    Ends (attempts + 1) filled rest source
      (loop maxRetry reads failures filled rest source).val := by
  obtain ⟨tried, source', rest', hasked, -, hend⟩ :=
    loop_concluded maxRetry reads failures attempts filled rest source hattempts hreads
  generalize (loop maxRetry reads failures filled rest source).val = c at hend ⊢
  cases hend with
  | full hbudget =>
    refine .inl ⟨rfl, ?_⟩
    rw [List.length_append, ← hasked.length_bytes]
    rfl
  | spent hrest hbudget hlast => exact .inr ⟨rfl, hbudget ▸ hasked.fails⟩

end Collection

def Exhausted (source : ε) (length maxRetry : Nat) : Prop :=
  Collection.Fails (max maxRetry 1) (Bytes.zeros length) source

/-- A collection fills its buffer, or it fails and has used up its attempts. -/
theorem collect_ends (source : ε) (length maxRetry : Nat) :
    ((collect source length maxRetry).val.outcome = .ok () ∧
      (collect source length maxRetry).val.buffer.length = length) ∨
    ((collect source length maxRetry).val.outcome = .error .entropySourceFailure ∧
      Exhausted source length maxRetry) := by
  have hone : max maxRetry 1 - 1 + 1 = max maxRetry 1 := by omega
  have hends := Collection.loop_ends maxRetry (length + max maxRetry 1 + 1) 0 (max maxRetry 1 - 1)
    [] (Bytes.zeros length) source (by omega) (by rw [Bytes.length_zeros]; omega)
  rw [hone] at hends
  rcases hends with ⟨hok, hlen⟩ | hfailed
  · rw [List.length_nil, Nat.zero_add, Bytes.length_zeros] at hlen
    exact .inl ⟨hok, hlen⟩
  · exact .inr hfailed

end CryptoPrimitives
