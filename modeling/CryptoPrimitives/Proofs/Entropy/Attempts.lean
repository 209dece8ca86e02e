import CryptoPrimitives.Entropy.Collection
import Mathlib.Data.List.Infix

/-!
# Collections read by read

What a collection does is told by the reads that it makes: each is given just what is still missing,
and delivers what it claims of that, or fails. The reads go on until nothing is missing or the last
attempt of the budget has failed, whichever comes first. No bound on their number is involved.
-/

set_option autoImplicit false

namespace CryptoPrimitives

structure EntropyRead where
  given : Bytes
  delivery : Delivery

namespace EntropyRead

def claimed (a : EntropyRead) : Nat := a.delivery.outcome.toOption.getD 0

def bytes (a : EntropyRead) : Bytes := (a.delivery.buffer a.given).take a.claimed

def missing (a : EntropyRead) : Bytes := (a.delivery.buffer a.given).drop a.claimed

def failed (a : EntropyRead) : Bool := a.claimed = 0

def Honest (a : EntropyRead) : Prop := min a.claimed a.given.length ≤ a.delivery.written.length

variable {a : EntropyRead}

theorem outcome_failed (h : a.failed = true) (n : Nat) : a.delivery.outcome ≠ .ok (n + 1) := by
  intro houtcome
  have hclaimed : a.claimed = 0 := of_decide_eq_true h
  rw [claimed, houtcome] at hclaimed
  exact Nat.succ_ne_zero n hclaimed

theorem outcome_delivered (h : a.failed = false) :
    ∃ n, a.delivery.outcome = .ok (n + 1) ∧ a.claimed = n + 1 := by
  have hclaimed : a.claimed ≠ 0 := of_decide_eq_false h
  unfold claimed at hclaimed ⊢
  cases houtcome : a.delivery.outcome with
  | error e =>
    rw [houtcome] at hclaimed
    exact absurd rfl hclaimed
  | ok n =>
    rw [houtcome] at hclaimed
    exact ⟨n - 1, congrArg Except.ok (Nat.succ_pred hclaimed).symm, (Nat.succ_pred hclaimed).symm⟩

theorem length_bytes (a : EntropyRead) : a.bytes.length = min a.claimed a.given.length := by
  rw [bytes, List.length_take, Delivery.buffer, Bytes.length_overlay]

theorem length_bytes_missing (a : EntropyRead) :
    a.bytes.length + a.missing.length = a.given.length := by
  rw [bytes, missing, ← List.length_append, List.take_append_drop, Delivery.buffer,
    Bytes.length_overlay]

theorem bytes_failed (h : a.failed = true) : a.bytes = [] := by
  rw [bytes, of_decide_eq_true h, List.take_zero]

theorem missing_failed (h : a.failed = true) : a.missing = a.delivery.buffer a.given := by
  rw [missing, of_decide_eq_true h, List.drop_zero]

theorem length_missing_failed (h : a.failed = true) : a.missing.length = a.given.length := by
  have hlength := a.length_bytes_missing
  rw [bytes_failed h, List.length_nil] at hlength
  omega

theorem length_missing_lt (h : a.failed = false) (hgiven : a.given ≠ []) :
    a.missing.length < a.given.length := by
  have hclaimed : a.claimed ≠ 0 := of_decide_eq_false h
  have hpos := List.length_pos_iff.mpr hgiven
  have hbytes := a.length_bytes
  have hlength := a.length_bytes_missing
  omega

theorem Honest.bytes_eq (h : a.Honest) :
    a.bytes = a.delivery.written.take (min a.claimed a.given.length) := by
  have hfront : min a.claimed a.given.length ≤ (a.delivery.written.take a.given.length).length := by
    rw [List.length_take]
    exact Nat.le_min.mpr ⟨Nat.min_le_right _ _, h⟩
  have htaken : a.bytes = (a.delivery.buffer a.given).take (min a.claimed a.given.length) := by
    have hbuffer : (a.delivery.buffer a.given).length = a.given.length := Bytes.length_overlay _ _
    rw [bytes, List.take_eq_take_min, hbuffer]
  rw [htaken, Delivery.buffer, Bytes.overlay, List.take_append_of_le_length hfront, List.take_take,
    Nat.min_eq_left (Nat.min_le_right _ _)]

end EntropyRead

variable {ε : Type} [EntropySource ε]

namespace Collection

def attempt (source : ε) (rest : Bytes) : EntropyRead :=
  ⟨rest, (EntropySource.read source rest).val.1⟩

inductive Asked : ε → Bytes → List EntropyRead → ε → Bytes → Prop
  | done (source : ε) (rest : Bytes) : Asked source rest [] source rest
  | more {source source' : ε} {rest rest' : Bytes} {attempts : List EntropyRead} (hrest : rest ≠ [])
      (hlater : Asked (EntropySource.read source rest).val.2 (attempt source rest).missing attempts
        source' rest') :
      Asked source rest (attempt source rest :: attempts) source' rest'

/-- Every read is given what the reads before it have not delivered. -/
theorem Asked.asks {source source' : ε} {rest rest' : Bytes} {attempts : List EntropyRead}
    (h : Asked source rest attempts source' rest') {before after : List EntropyRead}
    {a : EntropyRead} (hsplit : attempts = before ++ a :: after) :
    a.given ≠ [] ∧ (before.flatMap EntropyRead.bytes).length + a.given.length = rest.length := by
  induction h generalizing before with
  | done => simp at hsplit
  | @more source source' rest rest' attempts hrest hlater ih =>
    cases before with
    | nil =>
      cases hsplit
      exact ⟨hrest, Nat.zero_add _⟩
    | cons b before =>
      cases hsplit
      obtain ⟨hgiven, hlength⟩ := ih rfl
      have hstep := (attempt source rest).length_bytes_missing
      refine ⟨hgiven, ?_⟩
      rw [List.flatMap_cons, List.length_append, Nat.add_assoc, hlength]
      exact hstep

theorem Asked.length_bytes {source source' : ε} {rest rest' : Bytes} {attempts : List EntropyRead}
    (h : Asked source rest attempts source' rest') :
    (attempts.flatMap EntropyRead.bytes).length + rest'.length = rest.length := by
  induction h with
  | done => exact Nat.zero_add _
  | @more source source' rest rest' attempts hrest hlater ih =>
    have hstep := (attempt source rest).length_bytes_missing
    rw [List.flatMap_cons, List.length_append, Nat.add_assoc, ih]
    exact hstep

/-- The source alone decides what the reads are. -/
theorem Asked.isPrefix {source source' source'' : ε} {rest rest' : Bytes}
    {attempts later : List EntropyRead} (h : Asked source rest attempts source' rest')
    (hfull : Asked source rest later source'' []) : attempts <+: later := by
  induction h generalizing later with
  | done => exact List.nil_prefix
  | more hrest hlater ih =>
    cases hfull with
    | done => exact absurd rfl hrest
    | more _ hlater' => exact List.cons_prefix_cons.mpr ⟨rfl, ih hlater'⟩

/-! ## The loop -/

theorem loop_delivered (maxRetry reads failures : Nat) (filled : Bytes) {rest : Bytes} {source : ε}
    (hrest : rest ≠ []) (h : (attempt source rest).failed = false) :
    (loop maxRetry (reads + 1) failures filled rest source).val =
      (loop maxRetry reads failures (filled ++ (attempt source rest).bytes)
        (attempt source rest).missing (EntropySource.read source rest).val.2).val := by
  obtain ⟨n, houtcome, hclaimed⟩ := EntropyRead.outcome_delivered h
  rw [loop, if_neg (by simpa using hrest), Recorded.val_bind, EntropyRead.bytes,
    EntropyRead.missing, hclaimed]
  simp only [attempt] at houtcome ⊢
  rw [houtcome]

theorem loop_failed (maxRetry reads failures : Nat) (filled : Bytes) {rest : Bytes} {source : ε}
    (hrest : rest ≠ []) (h : (attempt source rest).failed = true) :
    (loop maxRetry (reads + 1) failures filled rest source).val =
      if maxRetry ≤ failures + 1 then
        ⟨.error .entropySourceFailure, Bytes.zeros (filled.length + rest.length),
          (EntropySource.read source rest).val.2⟩
      else
        (loop maxRetry reads (failures + 1) filled (attempt source rest).missing
          (EntropySource.read source rest).val.2).val := by
  have hlength : ((EntropySource.read source rest).val.1.buffer rest).length = rest.length :=
    Bytes.length_overlay _ _
  have hmissing : (attempt source rest).missing =
      (EntropySource.read source rest).val.1.buffer rest := EntropyRead.missing_failed h
  rw [loop, if_neg (by simpa using hrest), Recorded.val_bind, hmissing]
  dsimp only
  split
  · rename_i n hdelivered
    exact absurd hdelivered (EntropyRead.outcome_failed h n)
  · rw [Recorded.val_bind, hlength]
    split <;> rfl

inductive Concluded (budget length : Nat) (filled : Bytes) (attempts : List EntropyRead)
    (source : ε) : Bytes → Collected ε → Prop
  | full (hbudget : attempts.countP EntropyRead.failed < budget) :
      Concluded budget length filled attempts source []
        ⟨.ok (), filled ++ attempts.flatMap EntropyRead.bytes, source⟩
  | spent {rest : Bytes} (hrest : rest ≠ []) (hbudget : attempts.countP EntropyRead.failed = budget)
      (hlast : ∃ last ∈ attempts.getLast?, last.failed = true) :
      Concluded budget length filled attempts source rest
        ⟨.error .entropySourceFailure, Bytes.zeros length, source⟩

section

variable {budget length : Nat} {filled rest : Bytes} {attempts : List EntropyRead} {source : ε}
  {c : Collected ε} {a : EntropyRead}

omit [EntropySource ε] in
theorem last_cons (h : ∃ last ∈ attempts.getLast?, last.failed = true) :
    ∃ last ∈ (a :: attempts).getLast?, last.failed = true := by
  obtain ⟨last, hmem, hfailed⟩ := h
  refine ⟨last, ?_, hfailed⟩
  rw [List.getLast?_cons, Option.mem_def.mp hmem]
  rfl

omit [EntropySource ε] in
theorem Concluded.delivered (ha : a.failed = false)
    (h : Concluded budget length (filled ++ a.bytes) attempts source rest c) :
    Concluded budget length filled (a :: attempts) source rest c := by
  have hcount : (a :: attempts).countP EntropyRead.failed = attempts.countP EntropyRead.failed :=
    List.countP_cons_of_neg (by rw [ha]; exact Bool.false_ne_true)
  cases h with
  | full hbudget =>
    rw [List.append_assoc, ← List.flatMap_cons]
    exact .full (hcount ▸ hbudget)
  | spent hrest hbudget hlast => exact .spent hrest (hcount.trans hbudget) (last_cons hlast)

omit [EntropySource ε] in
theorem Concluded.failed (ha : a.failed = true)
    (h : Concluded budget length filled attempts source rest c) :
    Concluded (budget + 1) length filled (a :: attempts) source rest c := by
  have hcount : (a :: attempts).countP EntropyRead.failed =
      attempts.countP EntropyRead.failed + 1 := List.countP_cons_of_pos ha
  cases h with
  | full hbudget =>
    have hbytes : attempts.flatMap EntropyRead.bytes =
        (a :: attempts).flatMap EntropyRead.bytes := by
      rw [List.flatMap_cons, EntropyRead.bytes_failed ha, List.nil_append]
    rw [hbytes]
    exact .full (by omega)
  | spent hrest hbudget hlast => exact .spent hrest (by omega) (last_cons hlast)

end

theorem loop_concluded (maxRetry reads failures budget : Nat) (filled rest : Bytes) (source : ε)
    (hbudget : failures + (budget + 1) = max maxRetry 1)
    (hreads : rest.length + (budget + 1) < reads) :
    ∃ attempts source' rest', Asked source rest attempts source' rest' ∧
      attempts.length ≤ rest.length + (budget + 1) ∧
      Concluded (budget + 1) (filled.length + rest.length) filled attempts source' rest'
        (loop maxRetry reads failures filled rest source).val := by
  induction reads generalizing failures budget filled rest source with
  | zero => omega
  | succ reads ih =>
    by_cases hrest : rest = []
    · subst hrest
      have hend : Concluded (budget + 1) filled.length filled [] source []
          ⟨.ok (), filled ++ [].flatMap EntropyRead.bytes, source⟩ := .full (Nat.succ_pos budget)
      rw [List.flatMap_nil, List.append_nil] at hend
      exact ⟨[], source, [], .done _ _, Nat.zero_le _, hend⟩
    cases hfailed : (attempt source rest).failed with
    | false =>
      rw [loop_delivered maxRetry reads failures filled hrest hfailed]
      have hless : (attempt source rest).missing.length < rest.length :=
        EntropyRead.length_missing_lt hfailed hrest
      have hlength : (attempt source rest).bytes.length + (attempt source rest).missing.length =
          rest.length := (attempt source rest).length_bytes_missing
      obtain ⟨attempts, source', rest', hasked, hcount, hend⟩ :=
        ih failures budget (filled ++ (attempt source rest).bytes) (attempt source rest).missing
          (EntropySource.read source rest).val.2 hbudget (by omega)
      rw [List.length_append, Nat.add_assoc, hlength] at hend
      refine ⟨_, source', rest', .more hrest hasked, ?_, hend.delivered hfailed⟩
      rw [List.length_cons]
      omega
    | true =>
      rw [loop_failed maxRetry reads failures filled hrest hfailed]
      have hlength : (attempt source rest).missing.length = rest.length :=
        EntropyRead.length_missing_failed hfailed
      split
      · rename_i hspent
        obtain rfl : budget = 0 := by omega
        refine ⟨_, _, _, .more hrest (.done _ _), Nat.le_add_left 1 _, .spent ?_ ?_ ?_⟩
        · intro hnone
          rw [hnone, List.length_nil] at hlength
          exact hrest (List.length_eq_zero_iff.mp hlength.symm)
        · exact List.countP_cons_of_pos hfailed
        · exact ⟨_, rfl, hfailed⟩
      · rename_i hmore
        obtain ⟨left, rfl⟩ : ∃ left, budget = left + 1 := ⟨budget - 1, by omega⟩
        obtain ⟨attempts, source', rest', hasked, hcount, hend⟩ :=
          ih (failures + 1) left filled (attempt source rest).missing
            (EntropySource.read source rest).val.2 (by omega) (by omega)
        rw [hlength] at hend
        refine ⟨_, source', rest', .more hrest hasked, ?_, hend.failed hfailed⟩
        rw [List.length_cons]
        omega

theorem collect_concluded (source : ε) (length maxRetry : Nat) :
    ∃ attempts rest,
      Asked source (Bytes.zeros length) attempts (collect source length maxRetry).val.source rest ∧
        attempts.length ≤ length + max maxRetry 1 ∧
        Concluded (max maxRetry 1) length [] attempts (collect source length maxRetry).val.source
          rest (collect source length maxRetry).val := by
  have hone : max maxRetry 1 - 1 + 1 = max maxRetry 1 := by omega
  have hzeros : (Bytes.zeros length).length = length := Bytes.length_zeros length
  obtain ⟨attempts, source', rest, hasked, hcount, hend⟩ :=
    loop_concluded maxRetry (length + max maxRetry 1 + 1) 0 (max maxRetry 1 - 1) []
      (Bytes.zeros length) source (by omega) (by omega)
  rw [hone, hzeros] at hcount hend
  rw [List.length_nil, Nat.zero_add] at hend
  have hsource : (collect source length maxRetry).val.source = source' := by
    change Concluded _ _ _ _ _ _ (collect source length maxRetry).val at hend
    cases hrun : (collect source length maxRetry).val
    rw [hrun] at hend
    cases hend <;> rfl
  rw [hsource]
  exact ⟨attempts, rest, hasked, hcount, hend⟩

end Collection

open Collection

/-- The reads of a collection: each is given what is still missing, and they end when nothing is, or
with the failure that uses up the attempts, of which there is one at least. What the reads
delivered is what is collected; a failure leaves zeros. -/
theorem collect_accumulates (source : ε) (length maxRetry : Nat) :
    let c := (collect source length maxRetry).val
    (∃ attempts rest, Asked source (Bytes.zeros length) attempts c.source rest ∧
      attempts.length ≤ length + max maxRetry 1 ∧
      (∀ before a after, attempts = before ++ a :: after →
        a.given ≠ [] ∧ (before.flatMap EntropyRead.bytes).length + a.given.length = length ∧
          a.bytes.length = min a.claimed a.given.length) ∧
      ((c.outcome = .ok () ∧ rest = [] ∧ attempts.countP EntropyRead.failed < max maxRetry 1 ∧
          c.buffer = attempts.flatMap EntropyRead.bytes ∧ c.buffer.length = length ∧
          ((∀ a ∈ attempts, a.Honest) → c.buffer =
            attempts.flatMap fun a => a.delivery.written.take (min a.claimed a.given.length))) ∨
        (c.outcome = .error .entropySourceFailure ∧ rest ≠ [] ∧
          attempts.countP EntropyRead.failed = max maxRetry 1 ∧
          (∃ last ∈ attempts.getLast?, last.failed = true) ∧ c.buffer = Bytes.zeros length))) ∧
    (c.outcome = .ok () ↔ ∃ attempts source',
      Asked source (Bytes.zeros length) attempts source' [] ∧
        attempts.countP EntropyRead.failed < max maxRetry 1) := by
  intro c
  obtain ⟨attempts, rest, hasked, hcount, hend⟩ := collect_concluded source length maxRetry
  have hzeros : (Bytes.zeros length).length = length := Bytes.length_zeros length
  have hasks : ∀ before a after, attempts = before ++ a :: after →
      a.given ≠ [] ∧ (before.flatMap EntropyRead.bytes).length + a.given.length = length ∧
        a.bytes.length = min a.claimed a.given.length := by
    intro before a after hsplit
    obtain ⟨hgiven, hlength⟩ := hasked.asks hsplit
    exact ⟨hgiven, hlength.trans hzeros, a.length_bytes⟩
  change Concluded _ _ _ _ c.source rest c at hend
  change Asked _ _ _ c.source rest at hasked
  cases hc : c with
  | mk outcome buffer after =>
    rw [hc] at hend hasked
    cases hend with
    | full hbudget =>
      refine ⟨⟨attempts, [], hasked, hcount, hasks, .inl ⟨rfl, rfl, hbudget, rfl, ?_, ?_⟩⟩, ?_⟩
      · have hlength := hasked.length_bytes
        rw [List.length_nil, Nat.add_zero, hzeros] at hlength
        exact hlength
      · exact fun hhonest => List.flatMap_congr fun a ha => (hhonest a ha).bytes_eq
      · exact iff_of_true rfl ⟨attempts, _, hasked, hbudget⟩
    | spent hrest hbudget hlast =>
      refine ⟨⟨attempts, rest, hasked, hcount, hasks, .inr ⟨rfl, hrest, hbudget, hlast, rfl⟩⟩,
        iff_of_false (fun hok => by cases hok) ?_⟩
      rintro ⟨later, source', hfull, hless⟩
      have hle : attempts.countP EntropyRead.failed ≤ later.countP EntropyRead.failed :=
        (hasked.isPrefix hfull).sublist.countP_le
      omega

end CryptoPrimitives
