import CryptoPrimitives.Proofs.BigInt.Supply
import CryptoPrimitives.Proofs.Residue.Made

/-!
# The invariant of all numbers

A workspace holds the numbers and the reducers that exist, and the state of a source of random
bytes. A call names them by their places; it makes new numbers, changes one in place, or ends one.
Every number of every workspace that calls lead to is canonical, those inside reducers included.
-/

set_option autoImplicit false

namespace CryptoPrimitives

open BigInt (Canonical RingOp)

structure Workspace (σ : Type) where
  numbers : List BigInt
  reducers : List Reducer
  source : σ

inductive Call
  | empty (alloc : Allocator)
  | ofUnits (limbs : Units)
  | ofLimb (v : Limb)
  | ofInt64 (v : Int64)
  | ofBytes (bytes : Bytes)
  | parse (text : String) (radix : Nat) (alloc : Allocator)
  | copy (i : Nat)
  | neg (i : Nat)
  | abs (i : Nat)
  | square (i : Nat)
  | shiftLeft (i k : Nat)
  | shiftRight (i k : Nat)
  | fresh (op : RingOp) (i j : Nat)
  | select (i j : Nat) (choice : Bool)
  | divMod (i j : Nat)
  | emod (i j : Nat)
  | gcd (i j : Nat)
  | modInverse (i j : Nat)
  | powMod (i j k : Nat)
  | randomBits (bits : Nat) (odd : Bool)
  | randomBelow (draws i : Nat)
  | randomRange (draws i : Nat)
  | write (op : RingOp) (d i j : Nat)
  | assign (op : RingOp) (d i : Nat)
  | squareInPlace (d : Nat)
  | setBit (d k : Nat)
  | withSign (d : Nat) (negative : Bool)
  | wipe (d : Nat)
  | release (d : Nat)
  | divisionReducer (i : Nat)
  | montgomeryContext (i : Nat)
  | reducerFor (i : Nat)
  | releaseReducer (r : Nat)
  | modulus (r : Nat)
  | reduce (r i : Nat)
  | mulMod (r i j : Nat)
  | power (r i j : Nat)
  | toMontgomery (r i : Nat)
  | fromMontgomery (r i : Nat)
  | montgomeryMul (r i j : Nat)
  | montgomerySquare (r i : Nat)

namespace Workspace

variable {σ : Type}

def start (source : σ) : Workspace σ := ⟨[], [], source⟩

def living (w : Workspace σ) : List BigInt := w.numbers ++ w.reducers.flatMap Reducer.numbers

def number (w : Workspace σ) (i : Nat) : BigInt := w.numbers.getD i .zero

def push (w : Workspace σ) (made : List BigInt) : Workspace σ :=
  { w with numbers := w.numbers ++ made }

def put (w : Workspace σ) (d : Nat) (x : BigInt) : Workspace σ :=
  { w with numbers := w.numbers.set d x }

def accepted {α : Type} (made : α → List BigInt) (a : Attempt α) : List BigInt :=
  match a.outcome with
  | .ok r => made r
  | .error _ => []

def checked (a : Checked (Booked BigInt)) : List BigInt :=
  match a with
  | .ok x => [x.val]
  | .error _ => []

def draw {α : Type} (w : Workspace σ) (made : α → List BigInt)
    (a : StateM σ (Except Fault α)) : Workspace σ :=
  let (r, source) := a.run w.source
  match r with
  | .ok r => { w with numbers := w.numbers ++ made r, source }
  | .error _ => { w with source }

def keep {α : Type} (w : Workspace σ) (made : α → Reducer) (a : Attempt α) : Workspace σ :=
  match a.outcome with
  | .ok r => { w with reducers := w.reducers ++ [made r] }
  | .error _ => w

def ask (w : Workspace σ) (r : Nat) (answer : Reducer → List BigInt) : Workspace σ :=
  w.push ((w.reducers[r]?).elim [] answer)

def viaMontgomery (answer : MontgomeryContext → List BigInt) : Reducer → List BigInt
  | .division _ => []
  | .montgomery c => answer c

section Steps

variable [Rendition] [Supply]

def step (fill : Fill (StateM σ)) (w : Workspace σ) : Call → Workspace σ
  | .empty alloc => w.push [.empty alloc]
  | .ofUnits limbs => w.push [(BigInt.ofUnits limbs).val]
  | .ofLimb v => w.push [(BigInt.ofLimb v).val]
  | .ofInt64 v => w.push [(BigInt.ofInt64 v).val]
  | .ofBytes bytes => w.push [(BigInt.ofBytesBE bytes).val]
  | .parse text radix alloc => w.push (accepted ([·]) (BigInt.parse text radix alloc))
  | .copy i => w.push [(w.number i).copy.val]
  | .neg i => w.push [(w.number i).neg.val]
  | .abs i => w.push [(w.number i).abs.val]
  | .square i => w.push [(w.number i).square.val]
  | .shiftLeft i k => w.push [((w.number i).shiftLeft k).val]
  | .shiftRight i k => w.push [((w.number i).shiftRight k).val]
  | .fresh op i j => w.push [(op.fresh (w.number i) (w.number j)).val]
  | .select i j choice => w.push [(BigInt.select (w.number i) (w.number j) choice).val]
  | .divMod i j => w.push (accepted (fun r => [r.1, r.2]) ((w.number i).divMod (w.number j)))
  | .emod i j => w.push (accepted ([·]) ((w.number i).emod (w.number j)))
  | .gcd i j => w.push (accepted ([·]) ((w.number i).gcd (w.number j)))
  | .modInverse i j => w.push (accepted ([·]) ((w.number i).modInverse (w.number j)))
  | .powMod i j k => w.push (accepted ([·]) ((w.number i).powMod (w.number j) (w.number k)))
  | .randomBits bits odd => w.draw ([·]) (BigInt.randomBits fill bits odd)
  | .randomBelow draws i => w.draw Option.toList (BigInt.randomBelow fill draws (w.number i))
  | .randomRange draws i => w.draw Option.toList (BigInt.randomRange fill draws (w.number i))
  | .write op d i j => w.put d (op.write (w.number d) (w.number i) (w.number j)).val
  | .assign op d i => w.put d (op.assign (w.number d) (w.number i)).val
  | .squareInPlace d => w.put d (w.number d).squareInPlace.val
  | .setBit d k => w.put d ((w.number d).setBit k).val
  | .withSign d negative => w.put d ((w.number d).withSign negative)
  | .wipe d => w.put d (w.number d).wipe
  | .release d => { w with numbers := w.numbers.eraseIdx d }
  | .divisionReducer i => w.keep .division (DivisionReducer.create (w.number i))
  | .montgomeryContext i => w.keep .montgomery (MontgomeryContext.create (w.number i))
  | .reducerFor i => w.keep id (Reducer.forModulus (w.number i))
  | .releaseReducer r => { w with reducers := w.reducers.eraseIdx r }
  | .modulus r => w.ask r fun r => [r.modulus.copy.val]
  | .reduce r i => w.ask r fun r => accepted ([·]) (r.reduce (w.number i))
  | .mulMod r i j => w.ask r fun r => accepted ([·]) (r.mulMod (w.number i) (w.number j))
  | .power r i j => w.ask r fun r => accepted ([·]) (r.powMod (w.number i) (w.number j))
  | .toMontgomery r i =>
    w.ask r (viaMontgomery fun c => accepted ([·]) (c.toMontgomery (w.number i)))
  | .fromMontgomery r i => w.ask r (viaMontgomery fun c => checked (c.fromMontgomery (w.number i)))
  | .montgomeryMul r i j =>
    w.ask r (viaMontgomery fun c => checked (c.mul (w.number i) (w.number j)))
  | .montgomerySquare r i => w.ask r (viaMontgomery fun c => checked (c.square (w.number i)))

def run (fill : Fill (StateM σ)) (calls : List Call) (w : Workspace σ) : Workspace σ :=
  calls.foldl (step fill) w

end Steps

/-! ## The invariant -/

structure Sound (w : Workspace σ) : Prop where
  numbers : ∀ x ∈ w.numbers, Canonical x
  reducers : ∀ r ∈ w.reducers, r.Sound

theorem start_sound (source : σ) : Sound (start source) := by
  constructor <;> simp [start]

namespace Sound

variable {w : Workspace σ}

theorem living (h : w.Sound) : ∀ x ∈ w.living, Canonical x := by
  intro x hx
  rcases List.mem_append.mp hx with hx | hx
  · exact h.numbers x hx
  · obtain ⟨r, hr, hx⟩ := List.mem_flatMap.mp hx
    exact h.reducers r hr x hx

theorem number (h : w.Sound) (i : Nat) : Canonical (w.number i) := by
  unfold Workspace.number
  rw [List.getD_eq_getElem?_getD]
  cases hi : w.numbers[i]? with
  | none => exact BigInt.empty_canonical _
  | some x => exact h.numbers x (List.mem_of_getElem? hi)

theorem push (h : w.Sound) {made : List BigInt} (hmade : ∀ x ∈ made, Canonical x) :
    (w.push made).Sound := by
  refine ⟨fun x hx => ?_, h.reducers⟩
  rcases List.mem_append.mp hx with hx | hx
  · exact h.numbers x hx
  · exact hmade x hx

theorem push_one (h : w.Sound) {x : BigInt} (hx : Canonical x) : (w.push [x]).Sound :=
  h.push (by simpa using hx)

theorem put (h : w.Sound) (d : Nat) {x : BigInt} (hx : Canonical x) : (w.put d x).Sound := by
  refine ⟨fun y hy => ?_, h.reducers⟩
  rcases List.mem_or_eq_of_mem_set hy with hy | rfl
  · exact h.numbers y hy
  · exact hx

theorem draw (h : w.Sound) {α : Type} {made : α → List BigInt}
    {a : StateM σ (Except Fault α)} (ha : BigInt.Draws (fun r => ∀ x ∈ made r, Canonical x) a) :
    (w.draw made a).Sound := by
  unfold Workspace.draw
  have hdraw := ha w.source
  generalize a.run w.source = result at hdraw
  obtain ⟨r, source⟩ := result
  cases r with
  | error e => exact ⟨h.numbers, h.reducers⟩
  | ok r =>
    have hpush := h.push (hdraw r rfl)
    exact ⟨hpush.numbers, hpush.reducers⟩

theorem keep (h : w.Sound) {α : Type} {made : α → Reducer} {a : Attempt α}
    (ha : a.Yields fun r => (made r).Sound) : (w.keep made a).Sound := by
  unfold Workspace.keep
  split
  · next r hr =>
    refine ⟨h.numbers, fun s hs => ?_⟩
    rcases List.mem_append.mp hs with hs | hs
    · exact h.reducers s hs
    · rw [List.mem_singleton.mp hs]
      exact ha r hr
  · exact h

theorem ask (h : w.Sound) (r : Nat) {answer : Reducer → List BigInt}
    (ha : ∀ r, r.Sound → ∀ x ∈ answer r, Canonical x) : (w.ask r answer).Sound := by
  refine h.push fun x hx => ?_
  cases hr : w.reducers[r]? with
  | none =>
    rw [hr] at hx
    cases hx
  | some r =>
    rw [hr] at hx
    exact ha r (h.reducers r (List.mem_of_getElem? hr)) x hx

end Sound

/-! ## Answers -/

theorem accepted_canonical {α : Type} {made : α → List BigInt} {a : Attempt α}
    (ha : a.Yields fun r => ∀ x ∈ made r, Canonical x) : ∀ x ∈ accepted made a, Canonical x := by
  unfold accepted
  split
  · next r hr => exact ha r hr
  · exact fun x hx => by cases hx

theorem accepted_one {a : Attempt BigInt} (ha : a.Yields Canonical) :
    ∀ x ∈ accepted ([·]) a, Canonical x :=
  accepted_canonical fun r hr => by simpa using ha r hr

theorem viaMontgomery_canonical {answer : MontgomeryContext → List BigInt}
    (ha : ∀ c, ∀ x ∈ answer c, Canonical x) (r : Reducer) (_ : r.Sound) :
    ∀ x ∈ viaMontgomery answer r, Canonical x := by
  cases r with
  | division r => exact fun x hx => by cases hx
  | montgomery c => exact ha c

theorem checked_canonical {a : Checked (Booked BigInt)} (ha : ∀ b, a = .ok b → Canonical b.val) :
    ∀ x ∈ checked a, Canonical x := by
  intro x hx
  cases a with
  | error e => cases hx
  | ok b =>
    rw [List.mem_singleton.mp hx]
    exact ha b rfl

/-! ## Calls -/

section Calls

variable [Rendition]

theorem step_sound (fill : Fill (StateM σ)) {w : Workspace σ} (h : w.Sound) (call : Call) :
    (step fill w call).Sound := by
  cases call with
  | empty alloc => exact h.push_one (BigInt.empty_canonical alloc)
  | ofUnits limbs => exact h.push_one (BigInt.ofUnits_canonical limbs)
  | ofLimb v => exact h.push_one (BigInt.ofUnits_canonical [v])
  | ofInt64 v => exact h.push_one (BigInt.ofInt64_canonical v)
  | ofBytes bytes => exact h.push_one (BigInt.ofUnits_canonical _)
  | parse text radix alloc => exact h.push (accepted_one (BigInt.parse_yields text radix alloc))
  | copy i => exact h.push_one (BigInt.copy_canonical (h.number i))
  | neg i => exact h.push_one (BigInt.neg_represents _).canonical
  | abs i => exact h.push_one (BigInt.abs_canonical _)
  | square i => exact h.push_one (RingOp.product.fresh_canonical _ _)
  | shiftLeft i k => exact h.push_one (BigInt.shiftLeft_canonical _ k)
  | shiftRight i k => exact h.push_one (BigInt.shiftRight_canonical _ k)
  | fresh op i j => exact h.push_one (op.fresh_canonical _ _)
  | select i j choice => exact h.push_one (BigInt.select_canonical _ _ choice)
  | divMod i j =>
    refine h.push (accepted_canonical fun r hr => ?_)
    simpa using BigInt.divMod_yields _ _ r hr
  | emod i j => exact h.push (accepted_one (BigInt.emod_yields _ _))
  | gcd i j => exact h.push (accepted_one (BigInt.gcd_yields _ _))
  | modInverse i j => exact h.push (accepted_one (BigInt.modInverse_yields _ _))
  | powMod i j k => exact h.push (accepted_one (Reducer.bigInt_powMod_yields _ _ _))
  | randomBits bits odd =>
    refine h.draw fun source x hx => ?_
    simpa using BigInt.randomBits_draws fill bits odd source x hx
  | randomBelow draws i =>
    refine h.draw fun source x hx => ?_
    simpa using BigInt.randomBelow_draws fill draws (w.number i) source x hx
  | randomRange draws i =>
    refine h.draw fun source x hx => ?_
    simpa using BigInt.randomRange_draws fill draws (w.number i) source x hx
  | write op d i j => exact h.put d (op.write_canonical (h.number d) _ _)
  | assign op d i => exact h.put d (op.assign_canonical (h.number d) _)
  | squareInPlace d => exact h.put d (BigInt.squareInPlace_canonical (h.number d))
  | setBit d k => exact h.put d (BigInt.setBit_canonical (h.number d) k)
  | withSign d negative => exact h.put d (BigInt.withSign_canonical (h.number d) negative)
  | wipe d => exact h.put d (BigInt.wipe_canonical _)
  | release d => exact ⟨fun x hx => h.numbers x (List.mem_of_mem_eraseIdx hx), h.reducers⟩
  | divisionReducer i => exact h.keep (Reducer.division_yields _)
  | montgomeryContext i => exact h.keep (Reducer.montgomery_yields _)
  | reducerFor i => exact h.keep (Reducer.forModulus_yields _)
  | releaseReducer r => exact ⟨h.numbers, fun s hs => h.reducers s (List.mem_of_mem_eraseIdx hs)⟩
  | modulus r =>
    refine h.ask r fun r hr => ?_
    simpa using BigInt.copy_canonical hr.modulus
  | reduce r i => exact h.ask r fun r _ => accepted_one (r.reduce_yields _)
  | mulMod r i j => exact h.ask r fun r _ => accepted_one (r.mulMod_yields _ _)
  | power r i j => exact h.ask r fun r _ => accepted_one (r.powMod_yields _ _)
  | toMontgomery r i =>
    exact h.ask r (viaMontgomery_canonical fun c => accepted_one (c.toMontgomery_yields _))
  | fromMontgomery r i =>
    exact h.ask r (viaMontgomery_canonical fun c =>
      checked_canonical (c.fromMontgomery_canonical _))
  | montgomeryMul r i j =>
    exact h.ask r (viaMontgomery_canonical fun c => checked_canonical (c.mul_canonical _ _))
  | montgomerySquare r i =>
    exact h.ask r (viaMontgomery_canonical fun c => checked_canonical (c.mul_canonical _ _))

theorem run_sound (fill : Fill (StateM σ)) (calls : List Call) {w : Workspace σ} (h : w.Sound) :
    (run fill calls w).Sound := by
  induction calls generalizing w with
  | nil => exact h
  | cons call calls ih => exact ih (step_sound fill h call)

/-- Of every number that calls have led to, the significant limbs fit the buffer, all limbs past
them are zero, the top one is not, and zero is not negative. So two numbers stand for one integer
exactly when they have the same sign and limbs. None of it depends on the allocators: over any
supply that keeps its contract the calls lead to the same workspace, and a number that makes room
gets the same buffer and books the same. -/
theorem living_numbers_canonical (fill : Fill (StateM σ)) (source : σ) (calls : List Call) :
    (∀ x ∈ (run fill calls (start source)).living,
      x.size ≤ x.capacity ∧ (∀ i, x.size ≤ i → x.buffer.getD i 0 = 0) ∧
      (0 < x.size → x.buffer.getD (x.size - 1) 0 ≠ 0) ∧ (x.negative = true → 0 < x.size)) ∧
    (∀ x ∈ (run fill calls (start source)).living, ∀ y ∈ (run fill calls (start source)).living,
      x.toInt = y.toInt ↔ x.negative = y.negative ∧ x.units = y.units) ∧
    ∀ a : Supply, @Supply.Lawful a →
      (∀ w : Workspace σ, @run σ _ a fill calls w = run fill calls w) ∧
      ∀ (x : BigInt) (need : Nat), @BigInt.reserve a x need = x.reserve need := by
  have hall := (run_sound fill calls (start_sound source)).living
  refine ⟨fun x hx => ?_, fun x hx y hy => (hall x hx).toInt_eq_iff (hall y hy), fun a ha => ?_⟩
  case refine_2 =>
    obtain rfl := ha.eq_zeroing
    exact ⟨fun _ => rfl, fun _ _ => rfl⟩
  have hc := hall x hx
  refine ⟨hc.size_le, fun i hi => hc.getD_above hi, fun h0 => hc.top_ne_zero (by omega),
    fun hn => Nat.pos_of_ne_zero (hc.sign hn)⟩

end Calls

/-- A number grown by a bit and then overwritten by a difference that is zero. -/
theorem living_numbers_canonical_reused :
    let fill : Fill (StateM Unit) := fun n => pure (.ok (Bytes.zeros n))
    let calls : List Call := [.ofUnits [7, 9], .ofLimb 5, .withSign 0 true, .setBit 0 300,
      .write .difference 0 1 1]
    let x : BigInt := ⟨Units.zeros 8, 0, false, .secure⟩
    x ∈ (run fill calls (start ())).living ∧ @Supply.Lawful .zeroing ∧
      (∀ i, x.size ≤ i → x.buffer.getD i 0 = 0) ∧
      @BigInt.reserve .zeroing x 9 = x.reserve 9 := by
  intro fill calls x
  have hx : x ∈ (run fill calls (start ())).living := by decide
  obtain ⟨hinv, -, hsupply⟩ := living_numbers_canonical fill () calls
  exact ⟨hx, Supply.zeroing_lawful, (hinv x hx).2.1,
    (hsupply .zeroing Supply.zeroing_lawful).2 x 9⟩

end Workspace

end CryptoPrimitives
