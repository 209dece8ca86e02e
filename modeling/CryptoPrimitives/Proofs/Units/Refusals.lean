import CryptoPrimitives.Proofs.Units.Finished

/-!
# Refusals leave operands alone

A call of any of the operations is refused by the first of its checks that fails, in the order in
which they are made, and then nothing has been stored. A call that is not refused returns, whatever
it calls on the way, and neither stores nor changes anything past the stated limbs of its
destination. Either way it answers as the operation that looks at whole lists does.
-/

set_option autoImplicit false

namespace CryptoPrimitives.Units

open Access

inductive Answer
  | done
  | limb (u : Limb)
  | order (o : Ordering)
  | count (n : Nat)
  | truth (b : Bool)
  deriving DecidableEq, Repr

/-- An operation with the lengths and the other values that it is called with. The destination is
the target, and the first operand too where it is changed in place; an exchange is with the left
one. -/
inductive Operation
  | set (n : Nat)
  | zero (n : Nat)
  | setWithin (n ns : Nat)
  | assignIf (n : Nat) (choice : Bool)
  | swapIf (n : Nat) (choice : Bool)
  | shiftLeft (n k : Nat)
  | shiftRight (n k : Nat)
  | compare (n : Nat)
  | compareUneven (ns nt : Nat)
  | isZero (n : Nat)
  | significant (n : Nat)
  | bitLength (n : Nat)
  | add (n : Nat)
  | sub (n : Nat)
  | addOnto (n : Nat)
  | subFrom (n : Nat)
  | addLimb (n : Nat) (v : Limb)
  | subLimb (n : Nat) (v : Limb)
  | mulLimb (n : Nat) (v : Limb)
  | addMulLimb (n : Nat) (v : Limb)
  | mul (n : Nat)
  | mulLengths (ns nt : Nat)
  | divLimb (n : Nat) (d : Limb)
  deriving DecidableEq, Repr

namespace Operation

def checks : Operation → List Check
  | zero n => [.holds "r" .target n]
  | set n | assignIf n _ | addLimb n _ | subLimb n _ | mulLimb n _ | addMulLimb n _ =>
    [.holds "r" .target n, .holds "s" .left n]
  | setWithin n ns =>
    [.demand (ns ≤ n) (.sourceTooLong ns n), .holds "r" .target n, .holds "s" .left ns]
  | swapIf n _ => [.holds "a" .target n, .holds "b" .left n]
  | shiftLeft n k | shiftRight n k =>
    [.demand (k < Limb.bits) (.shiftTooFar k), .holds "r" .target n]
  | compare n => [.holds "s" .left n, .holds "t" .right n]
  | compareUneven ns nt => [.holds "s" .left ns, .holds "t" .right nt]
  | isZero n | significant n | bitLength n => [.holds "s" .left n]
  | add n | sub n => [.holds "r" .target n, .holds "s" .left n, .holds "t" .right n]
  | addOnto n | subFrom n => [.holds "r" .target n, .holds "t" .right n]
  | mul n => [.holds "r" .target (n + n), .holds "s" .left n, .holds "t" .right n]
  | mulLengths ns nt =>
    [.holds "r" .target (ns + nt), .holds "s" .left ns, .holds "t" .right nt]
  | divLimb n d => [.demand (d != 0) .zeroDivisor, .holds "q" .target n, .holds "s" .left n]

def reach : Operation → Operand → Nat
  | compare _ | compareUneven _ _ | isZero _ | significant _ | bitLength _ => fun _ => 0
  | swapIf n _ => fun p => if p = .right then 0 else n
  | mul n => only .target (n + n)
  | mulLengths ns nt => only .target (ns + nt)
  | set n | zero n | setWithin n _ | assignIf n _ | shiftLeft n _ | shiftRight n _ | add n | sub n
  | addOnto n | subFrom n | addLimb n _ | subLimb n _ | mulLimb n _ | addMulLimb n _
  | divLimb n _ => only .target n

section Running

variable [Rendition] {α : Type} (m : Operands)

def answering (f : α → Answer) (x : Access α) : Access Answer := do
  let a ← x
  return f a

def run : Operation → Access Answer
  | set n => answering (fun _ => .done) (InPlace.set n .target .left)
  | zero n => answering (fun _ => .done) (InPlace.zero n .target)
  | setWithin n ns => answering (fun _ => .done) (InPlace.setWithin n .target ns .left)
  | assignIf n choice => answering (fun _ => .done) (InPlace.assignIf n .target .left choice)
  | swapIf n choice => answering (fun _ => .done) (InPlace.swapIf n .target .left choice)
  | shiftLeft n k => answering .limb (InPlace.shiftLeft n .target k)
  | shiftRight n k => answering .limb (InPlace.shiftRight n .target k)
  | compare n => answering .order (InPlace.compare n .left .right)
  | compareUneven ns nt => answering .order (InPlace.compareUneven ns .left nt .right)
  | isZero n => answering .truth (InPlace.isZero n .left)
  | significant n => answering .count (InPlace.significant n .left)
  | bitLength n => answering .count (InPlace.bitLength n .left)
  | add n => answering .limb (InPlace.add n .target .left .right)
  | sub n => answering .limb (InPlace.sub n .target .left .right)
  | addOnto n => answering .limb (InPlace.addOnto n .target .right)
  | subFrom n => answering .limb (InPlace.subFrom n .target .right)
  | addLimb n v => answering .limb (InPlace.addLimb n .target .left v)
  | subLimb n v => answering .limb (InPlace.subLimb n .target .left v)
  | mulLimb n v => answering .limb (InPlace.mulLimb n .target .left v)
  | addMulLimb n v => answering .limb (InPlace.addMulLimb n .target .left v)
  | mul n => answering (fun _ => .done) (InPlace.mul n .target .left .right)
  | mulLengths ns nt => answering (fun _ => .done) (InPlace.mulLengths .target ns .left nt .right)
  | divLimb n d => answering .limb (InPlace.divLimb n .target .left d)

/-! ## On whole lists -/

def placed (us : Units) : Answer × Operands := (.done, m.put .target us)

def returned (o : Returned) : Answer × Operands := (.limb o.limb, m.put .target o.units)

def answer : Operation → Checked (Answer × Operands)
  | set n => (Checked.set n (m .target) (m .left)).map (placed m)
  | zero n => (Checked.zero n (m .target)).map (placed m)
  | setWithin n ns => (Checked.setWithin n (m .target) ns (m .left)).map (placed m)
  | assignIf n choice => (Checked.assignIf n (m .target) (m .left) choice).map (placed m)
  | swapIf n choice =>
    (Checked.swapIf n (m .target) (m .left) choice).map fun o =>
      (.done, (m.put .target o.1).put .left o.2)
  | shiftLeft n k => (Checked.shiftLeft n (m .target) k).map (returned m)
  | shiftRight n k => (Checked.shiftRight n (m .target) k).map (returned m)
  | compare n => (Checked.compare n (m .left) (m .right)).map fun o => (.order o, m)
  | compareUneven ns nt =>
    (Checked.compareUneven ns (m .left) nt (m .right)).map fun o => (.order o, m)
  | isZero n => (Checked.isZero n (m .left)).map fun b => (.truth b, m)
  | significant n => (Checked.significant n (m .left)).map fun count => (.count count, m)
  | bitLength n => (Checked.bitLength n (m .left)).map fun bits => (.count bits, m)
  | add n => (Checked.add n (m .target) (m .left) (m .right)).map (returned m)
  | sub n => (Checked.sub n (m .target) (m .left) (m .right)).map (returned m)
  | addOnto n => (Checked.addOnto n (m .target) (m .right)).map (returned m)
  | subFrom n => (Checked.subFrom n (m .target) (m .right)).map (returned m)
  | addLimb n v => (Checked.addLimb n (m .target) (m .left) v).map (returned m)
  | subLimb n v => (Checked.subLimb n (m .target) (m .left) v).map (returned m)
  | mulLimb n v => (Checked.mulLimb n (m .target) (m .left) v).map (returned m)
  | addMulLimb n v => (Checked.addMulLimb n (m .target) (m .left) v).map (returned m)
  | mul n => (Checked.mul n (m .target) (m .left) (m .right)).map (placed m)
  | mulLengths ns nt =>
    (Checked.mulLengths (m .target) ns (m .left) nt (m .right)).map (placed m)
  | divLimb n d => (Checked.divLimb n (m .target) (m .left) d).map (returned m)

end Running

/-! ## Refused calls -/

section Checks

variable {α β : Type} {m : Operands} {failure : Precondition}

def behind (m : Operands) : List Check → Checked α → Checked α
  | [], x => x
  | .holds name p required :: cs, x => do
    Checked.holds name required (m p)
    behind m cs x
  | .demand condition failure :: cs, x => do
    Checked.demand condition failure
    behind m cs x

theorem behind_eq (cs : List Check) (x : Checked α) :
    behind m cs x =
      match firstFailure m cs with
      | some failure => .error failure
      | none => x := by
  induction cs with
  | nil => rfl
  | cons c cs ih =>
    cases c with
    | holds name p required =>
      rw [behind, Checked.holds, firstFailure_holds]
      split
      · exact ih
      · rfl
    | demand condition why =>
      rw [behind, Checked.demand, firstFailure_demand]
      split
      · exact ih
      · rfl

theorem behind_refused {cs : List Check} (h : firstFailure m cs = some failure) (x : Checked α) :
    behind m cs x = .error failure := by
  rw [behind_eq, h]

theorem map_refused {x : Checked α} {f : α → β} (h : x = .error failure) :
    x.map f = .error failure := by
  rw [h]
  rfl

/-- The last check is made by the operation that does the setting, which repeats one that has
passed. -/
theorem setWithin_refused {n ns : Nat}
    (h : firstFailure m (setWithin n ns).checks = some failure) :
    firstFailure m [.demand (ns ≤ n) (.sourceTooLong ns n), .holds "r" .target n] =
        some failure ∨
      firstFailure m [.demand (ns ≤ n) (.sourceTooLong ns n), .holds "r" .target n] = none ∧
        firstFailure m (set ns).checks = some failure := by
  simp only [checks, firstFailure_demand, firstFailure_holds, firstFailure_nil,
    decide_eq_true_eq] at h ⊢
  by_cases hn : ns ≤ n
  · by_cases hr : n ≤ (m .target).length
    · simpa [hn, hr, hn.trans hr] using h
    · simpa [hn, hr] using h
  · simpa [hn] using h

end Checks

section Refused

variable [Rendition] {m : Operands} {failure : Precondition}

theorem run_refused (op : Operation) (h : firstFailure m op.checks = some failure) :
    op.run m = ⟨.error (.refused failure), m, []⟩ := by
  cases op
  case setWithin n ns =>
    rcases setWithin_refused h with hfirst | ⟨hpassed, hset⟩
    · exact bind_stopped (guarded_refused hfirst _)
    · refine bind_stopped ?_
      rw [InPlace.setWithin, guarded_passed hpassed]
      exact bind_stopped (guarded_refused hset _)
  all_goals exact bind_stopped (guarded_refused h _)

theorem answer_refused (op : Operation) (h : firstFailure m op.checks = some failure) :
    op.answer m = .error failure := by
  cases op
  case setWithin n ns =>
    refine map_refused ?_
    rcases setWithin_refused h with hfirst | ⟨hpassed, hset⟩
    · exact behind_refused hfirst _
    · have hset' : Checked.set ns (m .target) (m .left) = .error failure := behind_refused hset _
      refine (behind_eq [.demand (ns ≤ n) (.sourceTooLong ns n), .holds "r" .target n] _).trans ?_
      rw [hpassed, hset']
      rfl
  all_goals exact map_refused (behind_refused h _)

end Refused

/-! ## Calls that are not refused -/

/-- In place and on whole lists an operation leaves and returns the same. -/
theorem told {α β : Type} {x : Access α} {f : α → Answer} {c : Checked β}
    {g : β → Answer × Operands} {a : α} {b : β} {m m' : Operands} {reach : Operand → Nat}
    (hx : Finishes x m a m' reach) (hc : c = .ok b) (hg : g b = (f a, m')) :
    ∃ a m', Finishes (answering f x) m a m' reach ∧ c.map g = .ok (a, m') := by
  refine ⟨f a, m', hx.bind (.quiet rfl), ?_⟩
  rw [hc, ← hg]
  rfl

section Passed

variable [Rendition] {m : Operands}

theorem passed_finishes (op : Operation) (h : firstFailure m op.checks = none) :
    ∃ a m', Finishes op.run m a m' op.reach ∧ op.answer m = .ok (a, m') := by
  cases op
  all_goals
    simp only [checks, passed_holds, passed_demand, firstFailure_nil, and_true, decide_eq_true_eq,
      bne_iff_ne] at h
  case set n =>
    obtain ⟨hr, hs⟩ := h
    exact told (InPlace.set_finishes (by decide) hr hs) (Checked.set_accepted hr hs) rfl
  case zero n => exact told (InPlace.zero_finishes h) (Checked.zero_accepted h) rfl
  case setWithin n ns =>
    obtain ⟨hn, hr, hs⟩ := h
    exact told (InPlace.setWithin_finishes (by decide) hn hr hs)
      (Checked.setWithin_accepted hn hr hs) rfl
  case assignIf n choice =>
    obtain ⟨hr, hs⟩ := h
    exact told (InPlace.assignIf_finishes (by decide) hr hs choice)
      (Checked.assignIf_accepted hr hs choice) rfl
  case swapIf n choice =>
    obtain ⟨ha, hb⟩ := h
    exact told (InPlace.swapIf_finishes (by decide) ha hb choice le_rfl le_rfl)
      (Checked.swapIf_accepted ha hb choice) rfl
  case shiftLeft n k =>
    obtain ⟨hk, hr⟩ := h
    exact told (InPlace.shiftLeft_finishes hk hr) (Checked.shiftLeft_accepted hr hk) rfl
  case shiftRight n k =>
    obtain ⟨hk, hr⟩ := h
    exact told (InPlace.shiftRight_finishes hk hr) (Checked.shiftRight_accepted hr hk) rfl
  case compare n =>
    obtain ⟨hs, ht⟩ := h
    exact told (.quiet (InPlace.compare_run hs ht)) (Checked.compare_accepted hs ht) rfl
  case compareUneven ns nt =>
    obtain ⟨hs, ht⟩ := h
    exact told (.quiet (InPlace.compareUneven_run hs ht)) (Checked.compareUneven_accepted hs ht)
      rfl
  case isZero n => exact told (.quiet (InPlace.isZero_run h)) (Checked.isZero_accepted h) rfl
  case significant n =>
    exact told (.quiet (InPlace.significant_run h)) (Checked.significant_accepted h) rfl
  case bitLength n =>
    exact told (.quiet (InPlace.bitLength_run h)) (Checked.bitLength_accepted h) rfl
  case add n =>
    obtain ⟨hr, hs, ht⟩ := h
    exact told (InPlace.add_finishes (by decide) (by decide) hr hs ht)
      (Checked.add_accepted hr hs ht) rfl
  case sub n =>
    obtain ⟨hr, hs, ht⟩ := h
    exact told (InPlace.sub_finishes (by decide) (by decide) hr hs ht)
      (Checked.sub_accepted hr hs ht) rfl
  case addOnto n =>
    obtain ⟨hr, ht⟩ := h
    exact told (InPlace.addOnto_finishes (by decide) hr ht)
      ((Checked.addOnto_eq_add hr ht).trans (Checked.add_accepted hr hr ht)) rfl
  case subFrom n =>
    obtain ⟨hr, ht⟩ := h
    exact told (InPlace.subFrom_finishes (by decide) hr ht)
      ((Checked.subFrom_eq_sub hr ht).trans (Checked.sub_accepted hr hr ht)) rfl
  case addLimb n v =>
    obtain ⟨hr, hs⟩ := h
    exact told (InPlace.addLimb_finishes (by decide) hr hs v) (Checked.addLimb_accepted hr hs v)
      rfl
  case subLimb n v =>
    obtain ⟨hr, hs⟩ := h
    exact told (InPlace.subLimb_finishes (by decide) hr hs v) (Checked.subLimb_accepted hr hs v)
      rfl
  case mulLimb n v =>
    obtain ⟨hr, hs⟩ := h
    exact told (InPlace.mulLimb_finishes (by decide) hr hs v) (Checked.mulLimb_accepted hr hs v)
      rfl
  case addMulLimb n v =>
    obtain ⟨hr, hs⟩ := h
    exact told (InPlace.addMulLimb_finishes (by decide) hr hs v)
      (Checked.addMulLimb_accepted hr hs v) rfl
  case mul n =>
    obtain ⟨hr, hs, ht⟩ := h
    exact told (InPlace.mulLengths_finishes (by decide) (by decide) hr hs ht)
      (Checked.mulLengths_accepted hr hs ht) rfl
  case mulLengths ns nt =>
    obtain ⟨hr, hs, ht⟩ := h
    exact told (InPlace.mulLengths_finishes (by decide) (by decide) hr hs ht)
      (Checked.mulLengths_accepted hr hs ht) rfl
  case divLimb n d =>
    obtain ⟨hd, hr, hs⟩ := h
    exact told (InPlace.divLimb_finishes (by decide) hd hr hs) (Checked.divLimb_accepted hd hr hs)
      rfl

end Passed

end Operation

/-- A call is refused by the first check that fails and has stored nothing by then; or it returns,
and neither stores nor changes anything but the stated limbs of what it writes. In both cases it
answers as it does on whole lists. -/
theorem refused_at_once_or_finished [Rendition] (op : Operation) (m : Operands) :
    match firstFailure m op.checks with
    | some failure => op.run m = ⟨.error (.refused failure), m, []⟩ ∧ op.answer m = .error failure
    | none => ∃ a m', Finishes op.run m a m' op.reach ∧ op.answer m = .ok (a, m') := by
  cases h : firstFailure m op.checks with
  | some failure => exact ⟨op.run_refused h, op.answer_refused h⟩
  | none => exact op.passed_finishes h

/-- Two limbs are to be set from a source of one: the check is made after the destination has passed
its own, and none of its limbs has been touched. -/
example [Rendition] (us : Units) :
    (Operation.setWithin 3 2).run (fun p => if p = .left then [1] else 7 :: 7 :: 7 :: us) =
      ⟨.error (.refused (.short "s" 1 2)), fun p => if p = .left then [1] else 7 :: 7 :: 7 :: us,
        []⟩ := rfl

end CryptoPrimitives.Units
