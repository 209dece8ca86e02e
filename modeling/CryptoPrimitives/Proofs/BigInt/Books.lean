import CryptoPrimitives.Proofs.BigInt.Lifetimes
import CryptoPrimitives.Proofs.Residue.Account

/-!
# The books of a workspace

Each call is made with what it books, and a run books what its calls do. For every owner but the
secure allocator, from which random numbers take their buffers without a record, the buffers that
are out are those of the living numbers.
-/

set_option autoImplicit false

namespace CryptoPrimitives

open BigInt (Canonical Later RingOp)
open Ledger (Settles)

/-! ## The buffers of several numbers -/

namespace BigInt

def buffersOf (owner : Allocator) (xs : List BigInt) : List Nat :=
  (xs.filter fun x => x.alloc = owner ∧ 0 < x.capacity).map capacity

def heldBy (owner : Allocator) (n : Nat) (xs : List BigInt) : Nat := (xs.map (held owner n)).sum

variable {owner : Allocator} {n : Nat}

@[simp] theorem heldBy_nil : heldBy owner n [] = 0 := rfl

@[simp] theorem heldBy_cons (x : BigInt) (xs : List BigInt) :
    heldBy owner n (x :: xs) = x.held owner n + heldBy owner n xs := List.sum_cons

@[simp] theorem heldBy_append (xs ys : List BigInt) :
    heldBy owner n (xs ++ ys) = heldBy owner n xs + heldBy owner n ys := by
  rw [heldBy, List.map_append, List.sum_append]
  rfl

theorem count_buffersOf (xs : List BigInt) : (buffersOf owner xs).count n = heldBy owner n xs := by
  induction xs with
  | nil => rfl
  | cons x xs ih =>
    rw [heldBy_cons, ← ih, held]
    by_cases ho : x.alloc = owner
    · by_cases hn : x.capacity = n
      · by_cases hpos : 0 < n
        · simp [buffersOf, ho, hn, hpos, Nat.add_comm]
        · simp [buffersOf, hn, hpos]
      · by_cases hpos : 0 < x.capacity
        · simp [buffersOf, ho, hn, hpos]
        · simp [buffersOf, hn, hpos]
    · simp [buffersOf, ho]

/-- A number takes the place of another. -/
theorem heldBy_set (owner : Allocator) (n : Nat) (xs : List BigInt) (x : BigInt) {d : Nat}
    (hd : d < xs.length) :
    heldBy owner n (xs.set d x) + (xs.getD d .zero).held owner n =
      heldBy owner n xs + x.held owner n := by
  induction xs generalizing d with
  | nil => cases hd
  | cons y xs ih =>
    cases d with
    | zero =>
      simp only [List.set_cons_zero, List.getD_cons_zero, heldBy_cons]
      omega
    | succ d =>
      have hrest := ih (Nat.lt_of_succ_lt_succ hd)
      simp only [List.set_cons_succ, List.getD_cons_succ, heldBy_cons]
      omega

theorem heldBy_eraseIdx (owner : Allocator) (n : Nat) (xs : List BigInt) (d : Nat) :
    heldBy owner n (xs.eraseIdx d) + (xs.getD d .zero).held owner n = heldBy owner n xs := by
  induction xs generalizing d with
  | nil => simp
  | cons y xs ih =>
    cases d with
    | zero =>
      simp only [List.eraseIdx_cons_zero, List.getD_cons_zero, heldBy_cons]
      omega
    | succ d =>
      have hrest := ih d
      simp only [List.eraseIdx_cons_succ, List.getD_cons_succ, heldBy_cons]
      omega

/-- Random numbers come from the secure allocator. -/
theorem secure_drawable : Drawable fun x => x.alloc = .secure :=
  ⟨rfl, fun _ => (write_grows (x := zero) (Nat.zero_le _) _).alloc_eq,
    fun x i h => (setBit_grows x i).alloc_eq.trans h⟩

end BigInt

open BigInt (heldBy)

theorem Reducer.held_eq {owner : Allocator} {n : Nat} (r : Reducer) :
    r.held owner n = heldBy owner n r.numbers := by
  cases r <;> simp [Reducer.held, Reducer.numbers]

theorem Reducer.heldBy_eraseIdx (owner : Allocator) (n : Nat) (rs : List Reducer) {d : Nat}
    {r : Reducer} (h : rs[d]? = some r) :
    heldBy owner n ((rs.eraseIdx d).flatMap numbers) + r.held owner n =
      heldBy owner n (rs.flatMap numbers) := by
  induction rs generalizing d with
  | nil => cases h
  | cons s rs ih =>
    cases d with
    | zero =>
      cases h
      simp only [List.eraseIdx_cons_zero, List.flatMap_cons, BigInt.heldBy_append, r.held_eq]
      omega
    | succ d =>
      have hrest := ih h
      simp only [List.eraseIdx_cons_succ, List.flatMap_cons, BigInt.heldBy_append]
      omega

namespace Workspace

variable {σ : Type}

/-! ## Calls with what they book -/

def makes (w : Workspace σ) (x : Booked BigInt) : Booked (Workspace σ) := do
  return w.push [← x]

def tries {α : Type} (w : Workspace σ) (made : α → List BigInt) (a : Attempt α) :
    Booked (Workspace σ) := do
  let _ ← a.run
  return w.push (accepted made a)

def changes (w : Workspace σ) (d : Nat) (x : Booked BigInt) : Booked (Workspace σ) := do
  return w.put d (← x)

def keeps {α : Type} (w : Workspace σ) (made : α → Reducer) (a : Attempt α) :
    Booked (Workspace σ) := do
  let _ ← a.run
  return w.keep made a

def asks (w : Workspace σ) (r : Nat) (answer : Reducer → Booked (Workspace σ)) :
    Booked (Workspace σ) :=
  (w.reducers[r]?).elim (pure w) answer

def montgomeryOnly (w : Workspace σ) (answer : MontgomeryContext → Booked (Workspace σ)) :
    Reducer → Booked (Workspace σ)
  | .division _ => pure w
  | .montgomery c => answer c

def makesChecked (w : Workspace σ) : Checked (Booked BigInt) → Booked (Workspace σ)
  | .ok x => w.makes x
  | .error _ => pure w

theorem push_nil (w : Workspace σ) : w.push [] = w := by
  rw [push, List.append_nil]

theorem asks_val {w : Workspace σ} {r : Nat} {answer : Reducer → Booked (Workspace σ)}
    {made : Reducer → List BigInt} (h : ∀ r, (answer r).val = w.push (made r)) :
    (w.asks r answer).val = w.ask r made := by
  unfold asks ask
  cases w.reducers[r]? with
  | none => exact w.push_nil.symm
  | some r => exact h r

theorem montgomeryOnly_val {w : Workspace σ} {answer : MontgomeryContext → Booked (Workspace σ)}
    {made : MontgomeryContext → List BigInt} (h : ∀ c, (answer c).val = w.push (made c))
    (r : Reducer) : (w.montgomeryOnly answer r).val = w.push (viaMontgomery made r) := by
  cases r with
  | division r => exact w.push_nil.symm
  | montgomery c => exact h c

theorem makesChecked_val (w : Workspace σ) (a : Checked (Booked BigInt)) :
    (w.makesChecked a).val = w.push (checked a) := by
  cases a with
  | error e => exact w.push_nil.symm
  | ok x => rfl

section Books

variable [Rendition]

def perform (fill : Fill (StateM σ)) (w : Workspace σ) : Call → Booked (Workspace σ)
  | .empty alloc => w.makes (pure (.empty alloc))
  | .ofUnits limbs => w.makes (BigInt.ofUnits limbs)
  | .ofLimb v => w.makes (BigInt.ofLimb v)
  | .ofInt64 v => w.makes (BigInt.ofInt64 v)
  | .ofBytes bytes => w.makes (BigInt.ofBytesBE bytes)
  | .parse text radix alloc => w.tries ([·]) (BigInt.parse text radix alloc)
  | .copy i => w.makes (w.number i).copy
  | .neg i => w.makes (w.number i).neg
  | .abs i => w.makes (w.number i).abs
  | .square i => w.makes (w.number i).square
  | .shiftLeft i k => w.makes ((w.number i).shiftLeft k)
  | .shiftRight i k => w.makes ((w.number i).shiftRight k)
  | .fresh op i j => w.makes (op.fresh (w.number i) (w.number j))
  | .select i j choice => w.makes (BigInt.select (w.number i) (w.number j) choice)
  | .divMod i j => w.tries (fun r => [r.1, r.2]) ((w.number i).divMod (w.number j))
  | .emod i j => w.tries ([·]) ((w.number i).emod (w.number j))
  | .gcd i j => w.tries ([·]) ((w.number i).gcd (w.number j))
  | .modInverse i j => w.tries ([·]) ((w.number i).modInverse (w.number j))
  | .powMod i j k => w.tries ([·]) ((w.number i).powMod (w.number j) (w.number k))
  | .randomBits bits odd => pure (w.draw ([·]) (BigInt.randomBits fill bits odd))
  | .randomBelow draws i =>
    pure (w.draw Option.toList (BigInt.randomBelow fill draws (w.number i)))
  | .randomRange draws i =>
    pure (w.draw Option.toList (BigInt.randomRange fill draws (w.number i)))
  | .write op d i j => w.changes d (op.write (w.number d) (w.number i) (w.number j))
  | .assign op d i => w.changes d (op.assign (w.number d) (w.number i))
  | .squareInPlace d => w.changes d (w.number d).squareInPlace
  | .setBit d k => w.changes d ((w.number d).setBit k)
  | .withSign d negative => w.changes d (pure ((w.number d).withSign negative))
  | .wipe d => w.changes d (pure (w.number d).wipe)
  | .release d => do
    (w.number d).release
    return { w with numbers := w.numbers.eraseIdx d }
  | .divisionReducer i => w.keeps .division (DivisionReducer.create (w.number i))
  | .montgomeryContext i => w.keeps .montgomery (MontgomeryContext.create (w.number i))
  | .reducerFor i => w.keeps id (Reducer.forModulus (w.number i))
  | .releaseReducer r => w.asks r fun kept => do
    kept.release
    return { w with reducers := w.reducers.eraseIdx r }
  | .modulus r => w.asks r fun r => w.makes r.modulus.copy
  | .reduce r i => w.asks r fun r => w.tries ([·]) (r.reduce (w.number i))
  | .mulMod r i j => w.asks r fun r => w.tries ([·]) (r.mulMod (w.number i) (w.number j))
  | .power r i j => w.asks r fun r => w.tries ([·]) (r.powMod (w.number i) (w.number j))
  | .toMontgomery r i => w.asks r (w.montgomeryOnly fun c =>
    w.tries ([·]) (c.toMontgomery (w.number i)))
  | .fromMontgomery r i => w.asks r (w.montgomeryOnly fun c =>
    w.makesChecked (c.fromMontgomery (w.number i)))
  | .montgomeryMul r i j => w.asks r (w.montgomeryOnly fun c =>
    w.makesChecked (c.mul (w.number i) (w.number j)))
  | .montgomerySquare r i => w.asks r (w.montgomeryOnly fun c =>
    w.makesChecked (c.square (w.number i)))

def book (fill : Fill (StateM σ)) : List Call → Workspace σ → Booked (Workspace σ)
  | [], w => pure w
  | call :: calls, w => do
    let w ← perform fill w call
    book fill calls w

theorem perform_val (fill : Fill (StateM σ)) (w : Workspace σ) (call : Call) :
    (perform fill w call).val = step fill w call := by
  cases call with
  | releaseReducer r =>
    simp only [perform, step, asks]
    cases h : w.reducers[r]? with
    | some kept => rfl
    | none =>
      rw [List.eraseIdx_of_length_le (List.getElem?_eq_none_iff.mp h)]
      rfl
  | modulus r => exact asks_val fun _ => rfl
  | reduce r i => exact asks_val fun _ => rfl
  | mulMod r i j => exact asks_val fun _ => rfl
  | power r i j => exact asks_val fun _ => rfl
  | toMontgomery r i => exact asks_val (montgomeryOnly_val fun _ => rfl)
  | fromMontgomery r i => exact asks_val (montgomeryOnly_val fun _ => makesChecked_val w _)
  | montgomeryMul r i j => exact asks_val (montgomeryOnly_val fun _ => makesChecked_val w _)
  | montgomerySquare r i => exact asks_val (montgomeryOnly_val fun _ => makesChecked_val w _)
  | _ => rfl

theorem book_val (fill : Fill (StateM σ)) (calls : List Call) (w : Workspace σ) :
    (book fill calls w).val = run fill calls w := by
  induction calls generalizing w with
  | nil => rfl
  | cons call calls ih =>
    rw [book, Recorded.val_bind, ih, perform_val]
    rfl

end Books

/-! ## Moduli -/

structure Steady (w : Workspace σ) : Prop where
  sound : w.Sound
  moduli : ∀ r ∈ w.reducers, r.modulus.isZero = false

theorem start_steady (source : σ) : (start source).Steady := ⟨start_sound source, by simp [start]⟩

theorem keep_moduli {w : Workspace σ} (h : w.Steady) {α : Type} {made : α → Reducer}
    {a : Attempt α} (ha : a.Yields fun r => (made r).modulus.isZero = false) :
    ∀ r ∈ (w.keep made a).reducers, r.modulus.isZero = false := by
  unfold keep
  split
  · next r hr =>
    intro s hs
    rcases List.mem_append.mp hs with hs | hs
    · exact h.moduli s hs
    · rw [List.mem_singleton.mp hs]
      exact ha r hr
  · exact h.moduli

theorem draw_reducers {α : Type} (w : Workspace σ) (made : α → List BigInt)
    (a : StateM σ (Except Fault α)) : (w.draw made a).reducers = w.reducers := by
  unfold draw
  generalize a.run w.source = result
  obtain ⟨r, source⟩ := result
  cases r <;> rfl

section Calls

variable [Rendition] (fill : Fill (StateM σ)) {w : Workspace σ}

theorem step_steady (h : w.Steady) (call : Call) : (step fill w call).Steady := by
  refine ⟨step_sound fill h.sound call, ?_⟩
  cases call with
  | divisionReducer i => exact keep_moduli h (DivisionReducer.create_nonzero (h.sound.number i))
  | montgomeryContext i =>
    exact keep_moduli h (MontgomeryContext.create_nonzero (h.sound.number i))
  | reducerFor i => exact keep_moduli h (Reducer.forModulus_nonzero (h.sound.number i))
  | releaseReducer r => exact fun s hs => h.moduli s (List.mem_of_mem_eraseIdx hs)
  | randomBits bits odd =>
    simp only [step, draw_reducers]
    exact h.moduli
  | randomBelow draws i =>
    simp only [step, draw_reducers]
    exact h.moduli
  | randomRange draws i =>
    simp only [step, draw_reducers]
    exact h.moduli
  | _ => exact h.moduli

end Calls

/-! ## The account of each call -/

variable {owner : Allocator} {n : Nat}

def held (owner : Allocator) (n : Nat) (w : Workspace σ) : Nat := heldBy owner n w.living

theorem held_eq (w : Workspace σ) : w.held owner n =
    heldBy owner n w.numbers + heldBy owner n (w.reducers.flatMap Reducer.numbers) := by
  rw [held, living, BigInt.heldBy_append]

theorem held_push (w : Workspace σ) (made : List BigInt) :
    (w.push made).held owner n = w.held owner n + heldBy owner n made := by
  rw [held_eq, held_eq]
  simp only [push, BigInt.heldBy_append]
  omega

theorem makes_settles (w : Workspace σ) {x : Booked BigInt}
    (hx : Settles owner n 0 x.entries (x.val.held owner n)) :
    Settles owner n (w.held owner n) (w.makes x).entries ((w.makes x).val.held owner n) := by
  refine .bind hx (Nat.zero_le _) (.nil ?_)
  change _ = (w.push [x.val]).held owner n
  rw [held_push]
  simp

theorem tries_settles (w : Workspace σ) {α : Type} {made : α → List BigInt} {a : Attempt α}
    (ha : Attempt.Settles owner n 0 a fun r => heldBy owner n (made r)) :
    Settles owner n (w.held owner n) (w.tries made a).entries
      ((w.tries made a).val.held owner n) := by
  refine .bind ha (Nat.zero_le _) (.nil ?_)
  change _ = (w.push (accepted made a)).held owner n
  rw [held_push, accepted]
  cases a.outcome <;> simp [Attempt.resultHeld]

theorem keeps_settles (w : Workspace σ) {α : Type} {made : α → Reducer} {a : Attempt α}
    (ha : Attempt.Settles owner n 0 a fun r => (made r).held owner n) :
    Settles owner n (w.held owner n) (w.keeps made a).entries
      ((w.keeps made a).val.held owner n) := by
  refine .bind ha (Nat.zero_le _) (.nil ?_)
  change _ = (w.keep made a).held owner n
  rw [keep]
  cases a.outcome with
  | error e => simp [Attempt.resultHeld]
  | ok r =>
    simp only [held_eq, Attempt.resultHeld, List.flatMap_append, List.flatMap_singleton,
      BigInt.heldBy_append, Reducer.held_eq]
    omega

theorem asks_settles (w : Workspace σ) (r : Nat) {answer : Reducer → Booked (Workspace σ)}
    (ha : ∀ kept, w.reducers[r]? = some kept →
      Settles owner n (w.held owner n) (answer kept).entries ((answer kept).val.held owner n)) :
    Settles owner n (w.held owner n) (w.asks r answer).entries
      ((w.asks r answer).val.held owner n) := by
  unfold asks
  cases h : w.reducers[r]? with
  | none => exact .nil rfl
  | some kept => exact ha kept h

theorem montgomeryOnly_settles (w : Workspace σ)
    {answer : MontgomeryContext → Booked (Workspace σ)} {r : Reducer}
    (ha : ∀ c, r = .montgomery c →
      Settles owner n (w.held owner n) (answer c).entries ((answer c).val.held owner n)) :
    Settles owner n (w.held owner n) (w.montgomeryOnly answer r).entries
      ((w.montgomeryOnly answer r).val.held owner n) := by
  cases r with
  | division r => exact .nil rfl
  | montgomery c => exact ha c rfl

theorem makesChecked_settles (w : Workspace σ) {a : Checked (Booked BigInt)}
    (ha : ∀ x, a = .ok x → Settles owner n 0 x.entries (x.val.held owner n)) :
    Settles owner n (w.held owner n) (w.makesChecked a).entries
      ((w.makesChecked a).val.held owner n) := by
  cases a with
  | error e => exact .nil rfl
  | ok x => exact makes_settles w (ha x rfl)

/-- A place where nothing is reads as a number of the secure allocator, and so does what becomes of
it, so the account of another owner does not see it. -/
theorem held_put (w : Workspace σ) (howner : owner ≠ .secure) (d : Nat) {x : BigInt}
    (halloc : x.alloc = (w.number d).alloc) :
    (w.put d x).held owner n + (w.number d).held owner n = w.held owner n + x.held owner n := by
  simp only [held_eq, put]
  by_cases hd : d < w.numbers.length
  · have hsum := BigInt.heldBy_set owner n w.numbers x hd
    unfold number
    omega
  · have hzero : w.number d = .zero := by
      rw [number, List.getD_eq_getElem?_getD, List.getElem?_eq_none (by omega)]
      rfl
    rw [hzero] at halloc ⊢
    rw [List.set_eq_of_length_le (by omega), BigInt.held_zero,
      BigInt.held_other fun h => howner (h.symm.trans halloc)]

theorem held_number_le (w : Workspace σ) (d : Nat) :
    (w.number d).held owner n ≤ w.held owner n := by
  have h := BigInt.heldBy_eraseIdx owner n w.numbers d
  rw [held_eq]
  unfold number
  omega

theorem changes_settles (w : Workspace σ) (howner : owner ≠ .secure) (d : Nat) {x : Booked BigInt}
    (hx : Settles owner n ((w.number d).held owner n) x.entries (x.val.held owner n))
    (hlater : Later (w.number d) x.val) :
    Settles owner n (w.held owner n) (w.changes d x).entries
      ((w.changes d x).val.held owner n) := by
  have hput := w.held_put (n := n) howner d hlater.same_owner
  have hle : (w.number d).held owner n ≤ w.held owner n := w.held_number_le d
  refine .bind hx hle (.nil ?_)
  change _ = (w.put d x.val).held owner n
  omega

theorem release_settles (w : Workspace σ) (d : Nat) :
    Settles owner n (w.held owner n) (w.number d).release.entries
      (held owner n { w with numbers := w.numbers.eraseIdx d }) := by
  have herase := BigInt.heldBy_eraseIdx owner n w.numbers d
  refine (BigInt.release_settles (w.number d)).within (w.held_number_le d) ?_
  simp only [held_eq]
  unfold number
  omega

theorem releaseReducer_settles (w : Workspace σ) {r : Nat} {kept : Reducer}
    (hr : w.reducers[r]? = some kept) :
    Settles owner n (w.held owner n) kept.release.entries
      (held owner n { w with reducers := w.reducers.eraseIdx r }) := by
  have herase := Reducer.heldBy_eraseIdx owner n w.reducers hr
  refine kept.release_settles.within ?_ ?_
  · rw [held_eq]
    omega
  · simp only [held_eq]
    omega

theorem draw_settles (w : Workspace σ) (howner : owner ≠ .secure) {α : Type}
    {made : α → List BigInt} {a : StateM σ (Except Fault α)}
    (ha : BigInt.Draws (fun r => ∀ x ∈ made r, x.alloc = .secure) a) :
    Settles owner n (w.held owner n) [] ((w.draw made a).held owner n) := by
  refine .nil ?_
  unfold draw
  have hdraw := ha w.source
  generalize a.run w.source = result at hdraw
  obtain ⟨r, source⟩ := result
  cases r with
  | error e => rfl
  | ok r =>
    have hnone : heldBy owner n (made r) = 0 := by
      rw [heldBy, List.sum_eq_zero_iff]
      rintro _ hheld
      obtain ⟨x, hx, rfl⟩ := List.mem_map.mp hheld
      exact BigInt.held_other fun h => howner (h.symm.trans (hdraw r rfl x hx))
    have hpush : (w.push (made r)).held owner n = _ := held_push w (made r)
    rw [hnone] at hpush
    exact hpush.symm

section Performance

variable [Rendition] (fill : Fill (StateM σ)) {w : Workspace σ}

theorem perform_settles (h : w.Steady) (howner : owner ≠ .secure) (call : Call) :
    Settles owner n (w.held owner n) (perform fill w call).entries
      ((perform fill w call).val.held owner n) := by
  have hc := h.sound.number
  cases call with
  | empty alloc => exact w.makes_settles (.nil (BigInt.held_empty _ _ alloc).symm)
  | ofUnits limbs => exact w.makes_settles (BigInt.fresh_settles _ _)
  | ofLimb v => exact w.makes_settles (BigInt.ofLimb_settles v)
  | ofInt64 v => exact w.makes_settles (BigInt.ofInt64_settles v)
  | ofBytes bytes => exact w.makes_settles (BigInt.fresh_settles _ _)
  | parse text radix alloc =>
    exact w.tries_settles (by simpa using BigInt.parse_settles text radix alloc)
  | copy i => exact w.makes_settles (BigInt.copy_settles _)
  | neg i => exact w.makes_settles (BigInt.neg_settles _)
  | abs i => exact w.makes_settles (BigInt.abs_settles _)
  | square i => exact w.makes_settles (BigInt.mul_settles _ _)
  | shiftLeft i k => exact w.makes_settles (BigInt.shiftLeft_settles _ k)
  | shiftRight i k => exact w.makes_settles (BigInt.shiftRight_settles _ k)
  | fresh op i j => exact w.makes_settles (op.fresh_settles _ _)
  | select i j choice => exact w.makes_settles (BigInt.select_settles _ _ choice)
  | divMod i j => exact w.tries_settles (by simpa using BigInt.divMod_settles _ _)
  | emod i j => exact w.tries_settles (by simpa using BigInt.emod_settles _ _)
  | gcd i j => exact w.tries_settles (by simpa using BigInt.gcd_settles _ _)
  | modInverse i j => exact w.tries_settles (by simpa using BigInt.modInverse_settles _ (hc j))
  | powMod i j k =>
    exact w.tries_settles (by simpa using Reducer.bigInt_powMod_settles _ _ (hc k))
  | randomBits bits odd =>
    refine w.draw_settles howner fun source x hx => ?_
    simpa using BigInt.secure_drawable.randomBits fill bits odd source x hx
  | randomBelow draws i =>
    refine w.draw_settles howner fun source x hx => ?_
    simpa using BigInt.secure_drawable.randomBelow fill draws (w.number i) source x hx
  | randomRange draws i =>
    refine w.draw_settles howner fun source x hx => ?_
    simpa using BigInt.secure_drawable.randomRange fill draws (w.number i) source x hx
  | write op d i j =>
    exact w.changes_settles howner d (op.write_settles (hc d).size_le _ _)
      (op.write_later (hc d) (hc i) (hc j))
  | assign op d i =>
    exact w.changes_settles howner d (op.assign_settles (hc d).size_le _)
      (op.assign_later (hc d) (hc i))
  | squareInPlace d =>
    exact w.changes_settles howner d (BigInt.squareInPlace_settles (hc d).size_le)
      (BigInt.squareInPlace_later (hc d))
  | setBit d k =>
    exact w.changes_settles howner d (BigInt.setBit_grows _ k).settles (BigInt.setBit_later _ k)
  | withSign d negative =>
    exact w.changes_settles howner d (.nil rfl) (BigInt.withSign_later _ negative)
  | wipe d =>
    exact w.changes_settles howner d (.nil (BigInt.held_wipe _).symm) (BigInt.wipe_later _)
  | release d =>
    refine .bind (w.release_settles d) (Nat.le_refl _) (.nil ?_)
    change _ = held owner n { w with numbers := w.numbers.eraseIdx d }
    omega
  | divisionReducer i => exact w.keeps_settles (DivisionReducer.create_settles _)
  | montgomeryContext i => exact w.keeps_settles (MontgomeryContext.create_settles (hc i))
  | reducerFor i => exact w.keeps_settles (Reducer.forModulus_settles (hc i))
  | releaseReducer r =>
    refine w.asks_settles r fun kept hr => ?_
    refine .bind (w.releaseReducer_settles hr) (Nat.le_refl _) (.nil ?_)
    change _ = held owner n { w with reducers := w.reducers.eraseIdx r }
    omega
  | modulus r => exact w.asks_settles r fun r _ => w.makes_settles (BigInt.copy_settles r.modulus)
  | reduce r i =>
    exact w.asks_settles r fun r _ => w.tries_settles (by simpa using r.reduce_settles _)
  | mulMod r i j =>
    refine w.asks_settles r fun r hr => w.tries_settles ?_
    simpa using Reducer.mulMod_settles (h.moduli r (List.mem_of_getElem? hr)) _ _
  | power r i j =>
    refine w.asks_settles r fun r hr => w.tries_settles ?_
    simpa using Reducer.powMod_settles (h.moduli r (List.mem_of_getElem? hr)) _ _
  | toMontgomery r i =>
    refine w.asks_settles r fun r _ => w.montgomeryOnly_settles fun c _ => w.tries_settles ?_
    simpa using c.toMontgomery_settles _
  | fromMontgomery r i =>
    refine w.asks_settles r fun r _ => w.montgomeryOnly_settles fun c _ => ?_
    exact w.makesChecked_settles (c.fromMontgomery_settles _)
  | montgomeryMul r i j =>
    refine w.asks_settles r fun r _ => w.montgomeryOnly_settles fun c _ => ?_
    exact w.makesChecked_settles (c.mul_settles _ _)
  | montgomerySquare r i =>
    refine w.asks_settles r fun r _ => w.montgomeryOnly_settles fun c _ => ?_
    exact w.makesChecked_settles (c.mul_settles _ _)

theorem book_settles (h : w.Steady) (howner : owner ≠ .secure) (calls : List Call) :
    Settles owner n (w.held owner n) (book fill calls w).entries
      ((book fill calls w).val.held owner n) := by
  induction calls generalizing w with
  | nil => exact .nil rfl
  | cons call calls ih =>
    have hstep := step_steady fill h call
    rw [← perform_val] at hstep
    refine .bind (perform_settles fill h howner call) (Nat.le_refl _)
      ((ih hstep).within (by omega) ?_)
    change _ = (book fill calls (perform fill w call).val).val.held owner n
    omega

end Performance

/-! ## The whole account -/

end Workspace

/-- The account of one owner while some numbers live: buffers went out in multiples of four limbs,
and what came back had been wiped; at no time had more buffers of one length come back than gone
out; and those not back are the buffers of the numbers. -/
structure Ledger.Balanced (owner : Allocator) (entries : List Ledger.Entry) (living : List BigInt) :
    Prop where
  granular : ∀ length ∈ takenFrom owner entries, 0 < length ∧ 4 ∣ length
  wiped : ∀ buffer ∈ returnedTo owner entries, ∀ u ∈ buffer, u = 0
  out_before : ∀ earlier later, entries = earlier ++ later →
    ∀ n, returnedCount owner n earlier ≤ takenCount owner n earlier
  balance : (takenFrom owner entries).Perm
    ((returnedTo owner entries).map List.length ++ BigInt.buffersOf owner living)

namespace Ledger

variable {owner : Allocator} {entries : List Entry} {living : List BigInt}

theorem balanced_of_settles (h : ∀ n, Settles owner n 0 entries (heldBy owner n living)) :
    Balanced owner entries living := by
  have horderly := (h 0).orderly
  have hreplay := fun n => (h n).replay 0
  refine ⟨fun length hl => ?_, fun buffer hb => ?_, ?_, ?_⟩
  · obtain ⟨e, he, hlength⟩ := List.mem_filterMap.mp hl
    have hgood := horderly e he
    cases e with
    | taken o l =>
      simp only [Option.ite_none_right_eq_some, Option.some.injEq] at hlength
      rw [← hlength.2]
      exact hgood
    | returned o b => cases hlength
  · obtain ⟨e, he, hbuffer⟩ := List.mem_filterMap.mp hb
    have hgood := horderly e he
    cases e with
    | taken o l => cases hbuffer
    | returned o b =>
      simp only [Option.ite_none_right_eq_some, Option.some.injEq] at hbuffer
      rw [← hbuffer.2]
      exact hgood
  · rintro earlier later rfl n
    have hrun := hreplay n
    rw [outstanding_append] at hrun
    obtain ⟨out, hout, -⟩ := Option.bind_eq_some_iff.mp hrun
    have hcount := outstanding_count hout
    omega
  · rw [List.perm_iff_count]
    intro n
    have hcount := outstanding_count (hreplay n)
    rw [List.count_append, BigInt.count_buffersOf]
    change takenCount owner n entries = returnedCount owner n entries + _
    omega

theorem Balanced.capacity_dvd (h : Balanced owner entries living) {x : BigInt} (hx : x ∈ living)
    (howner : x.alloc = owner) : 4 ∣ x.capacity := by
  by_cases h0 : x.capacity = 0
  · rw [h0]
    exact Nat.dvd_zero 4
  · have hbuffer : x.capacity ∈ BigInt.buffersOf owner living := by
      refine List.mem_map_of_mem (List.mem_filter.mpr ⟨hx, ?_⟩)
      simp [howner, Nat.pos_of_ne_zero h0]
    exact (h.granular _ (h.balance.mem_iff.mpr (List.mem_append_right _ hbuffer))).2

end Ledger

namespace Workspace

variable {σ : Type}

def closing (w : Workspace σ) : List Call :=
  List.replicate w.numbers.length (.release 0) ++
    List.replicate w.reducers.length (.releaseReducer 0)

section Closing

variable [Rendition] (fill : Fill (StateM σ))

theorem run_release (w : Workspace σ) (k : Nat) : run fill (List.replicate k (.release 0)) w =
    { w with numbers := w.numbers.drop k } := by
  induction k generalizing w with
  | zero => rfl
  | succ k ih =>
    have hstep : step fill w (.release 0) = { w with numbers := w.numbers.tail } := by
      simp only [step, List.eraseIdx_zero]
    rw [List.replicate_succ, run, List.foldl_cons, ← run, hstep, ih, List.drop_tail]

theorem run_releaseReducer (w : Workspace σ) (k : Nat) :
    run fill (List.replicate k (.releaseReducer 0)) w =
      { w with reducers := w.reducers.drop k } := by
  induction k generalizing w with
  | zero => rfl
  | succ k ih =>
    have hstep : step fill w (.releaseReducer 0) = { w with reducers := w.reducers.tail } := by
      simp only [step, List.eraseIdx_zero]
    rw [List.replicate_succ, run, List.foldl_cons, ← run, hstep, ih, List.drop_tail]

theorem run_append (calls more : List Call) (w : Workspace σ) :
    run fill (calls ++ more) w = run fill more (run fill calls w) := List.foldl_append

theorem run_closing (w : Workspace σ) : (run fill w.closing w).living = [] := by
  rw [closing, run_append, run_release, run_releaseReducer]
  simp [living]

end Closing

section Account

variable [Rendition] (fill : Fill (StateM σ))

theorem book_balanced (source : σ) (calls : List Call) (id : Nat) :
    Ledger.Balanced (.pool id) (book fill calls (start source)).entries
      (run fill calls (start source)).living := by
  refine Ledger.balanced_of_settles fun n => ?_
  rw [← book_val]
  exact book_settles fill (start_steady source) (by simp) calls

/-- The numbers of one recording allocator in any run. Their capacities are multiples of four limbs.
Each number keeps at least the capacity it has, whatever calls follow, and after `k` buffers has
room for `2 ^ (k + 1)` limbs. A change in place asks for nothing if its result fits, and for one
buffer otherwise. And the account balances: what is out is what the living numbers hold, so nothing
is once they have all been ended, and no buffer comes back twice or unwiped. -/
theorem buffers_grow_and_return (source : σ) (calls : List Call) (id : Nat) :
    let w := run fill calls (start source)
    (book fill calls (start source)).val = w ∧
    (∀ x ∈ w.living, x.alloc = .pool id → 4 ∣ x.capacity) ∧
    (∀ i < w.numbers.length, (w.number i).alloc = .pool id → ∀ more j moves,
      follow fill more w i = some (j, moves) →
        let x := (run fill more w).number j
        j < (run fill more w).numbers.length ∧ (w.number i).capacity ≤ x.capacity ∧
          BigInt.Roomy ((w.number i).born + moves) x.capacity) ∧
    (∀ d ∈ w.living, ∀ s ∈ w.living, ∀ t ∈ w.living, BigInt.ChangesGrowOnce d s t) ∧
    Ledger.Balanced (.pool id) (book fill calls (start source)).entries w.living ∧
    Ledger.Balanced (.pool id) (book fill (calls ++ w.closing) (start source)).entries [] := by
  intro w
  have hsound : w.Sound := run_sound fill calls (start_sound source)
  have hbooks := book_balanced fill source calls id
  have hclosed := book_balanced fill source (calls ++ w.closing) id
  rw [run_append, run_closing] at hclosed
  refine ⟨book_val fill calls _, fun x hx => hbooks.capacity_dvd hx,
    fun i hi howner more j moves hf => ?_, fun d hd s hs t ht => ?_, hbooks, hclosed⟩
  · obtain ⟨hj, hlife⟩ := follow_life fill more hsound hi hf
    have hmem : w.number i ∈ w.living := by
      rw [number_eq w hi]
      exact List.mem_append_left _ (List.getElem_mem hi)
    have hborn := BigInt.born_roomy (hbooks.capacity_dvd hmem howner)
    exact ⟨hj, hlife.never_less, hlife.roomy _ hborn⟩
  · have hc := hsound.living
    exact BigInt.changes_grow_once (hc d hd) (hc s hs) (hc t ht)

end Account

/-- A number that has had three buffers, each twice as long as the one before. -/
theorem buffers_grow_and_return_thrice :
    let fill : Fill (StateM Unit) := fun n => pure (.ok (Bytes.zeros n))
    let calls : List Call := [.empty (.pool 7), .setBit 0 70, .copy 0]
    let more : List Call := [.setBit 0 300, .release 1, .setBit 0 600]
    let w := run fill calls (start ())
    follow fill more w 0 = some (0, 2) ∧
      BigInt.Roomy ((w.number 0).born + 2) ((run fill more w).number 0).capacity := by
  intro fill calls more w
  have hf : follow fill more w 0 = some (0, 2) := by decide
  obtain ⟨-, -, hlives, -⟩ := buffers_grow_and_return fill () calls 7
  exact ⟨hf, (hlives 0 (by decide) (by decide) more 0 2 hf).2.2⟩

end Workspace

end CryptoPrimitives
