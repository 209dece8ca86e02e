import CryptoPrimitives.Proofs.BigInt.Capacity
import CryptoPrimitives.Proofs.BigInt.Workspace

/-!
# The lives of numbers

A number lives from the call that makes it to the one that ends it. No call takes room from it, and
each one that gives it a larger buffer at least doubles the room. So the number of buffers that it
has had is bounded by the logarithm of its capacity.
-/

set_option autoImplicit false

namespace CryptoPrimitives

open BigInt (Canonical RingOp)

namespace BigInt

open Allocator (nextCapacity)

/-! ## One change -/

structure Later (x y : BigInt) : Prop where
  same_owner : y.alloc = x.alloc
  room : y.capacity = x.capacity ∨
    ∃ need, x.capacity < need ∧ y.capacity = nextCapacity x.capacity need

theorem Later.refl (x : BigInt) : Later x x := ⟨rfl, .inl rfl⟩

theorem Later.capacity_le {x y : BigInt} (h : Later x y) : x.capacity ≤ y.capacity := by
  rcases h.room with hsame | ⟨need, -, hnext⟩
  · exact hsame.ge
  · have hge := Allocator.nextCapacity_ge x.capacity need
    omega

theorem Grows.later {need : Nat} {change : BigInt → Booked BigInt} {x : BigInt}
    (h : Grows need change x) : Later x (change x).val := by
  refine ⟨h.alloc_eq, ?_⟩
  rw [h.capacity_eq, capacity_reserve]
  by_cases hfits : need ≤ x.capacity
  · rw [if_pos hfits]
    exact .inl rfl
  · rw [if_neg hfits]
    exact .inr ⟨need, by omega, rfl⟩

theorem wipe_later (x : BigInt) : Later x x.wipe := ⟨rfl, .inl (Units.length_zeros _)⟩

theorem withSign_later (x : BigInt) (negative : Bool) : Later x (x.withSign negative) :=
  ⟨rfl, .inl rfl⟩

theorem setBit_later (x : BigInt) (i : Nat) : Later x (x.setBit i).val := (setBit_grows x i).later

section Operations

variable [Rendition] {d s t : BigInt}

theorem RingOp.write_later (op : RingOp) (hd : Canonical d) (hs : Canonical s) (ht : Canonical t) :
    Later d (op.write d s t).val :=
  (op.write_grows hd.size_le hs ht).later

theorem RingOp.assign_later (op : RingOp) (hd : Canonical d) (ht : Canonical t) :
    Later d (op.assign d t).val := by
  rw [op.assign_eq]
  exact op.write_later hd (copy_canonical hd) ht

theorem squareInPlace_later (hd : Canonical d) : Later d d.squareInPlace.val :=
  RingOp.product.write_later hd (copy_canonical hd) (copy_canonical hd)

end Operations

/-! ## Several changes -/

def moved (x y : BigInt) : Nat := if x.capacity < y.capacity then 1 else 0

/-- The capacity of a number that has had so many buffers one after another: without one there is no
room, and after `k` of them there is room for `2 ^ (k + 1)` limbs at least. -/
structure Roomy (k c : Nat) : Prop where
  none_iff : k = 0 ↔ c = 0
  doubled : 0 < k → 2 ^ (k + 1) ≤ c

def born (x : BigInt) : Nat := if x.capacity = 0 then 0 else 1

theorem born_roomy {x : BigInt} (h : Allocator.granularity ∣ x.capacity) :
    Roomy x.born x.capacity := by
  unfold born
  by_cases h0 : x.capacity = 0
  · rw [if_pos h0]
    exact ⟨by simp [h0], by simp⟩
  · have hge := Nat.le_of_dvd (by omega) h
    rw [if_neg h0]
    exact ⟨by simp [h0], fun _ => hge⟩

theorem Roomy.later {k : Nat} {x y : BigInt} (h : Roomy k x.capacity) (hl : Later x y) :
    Roomy (k + moved x y) y.capacity := by
  rcases hl.room with hsame | ⟨need, hneed, hnext⟩
  · rw [moved, if_neg (by omega), hsame]
    exact h
  · have hge := Allocator.nextCapacity_ge x.capacity need
    have hfour := Nat.le_of_dvd (by omega) (Allocator.granularity_dvd_nextCapacity x.capacity need)
    rw [moved, if_pos (by omega), hnext]
    refine ⟨by omega, fun _ => ?_⟩
    by_cases hk : k = 0
    · rw [hk]
      exact hfour
    · calc 2 ^ (k + 1 + 1) = 2 * 2 ^ (k + 1) := by ring
        _ ≤ 2 * x.capacity := Nat.mul_le_mul_left 2 (h.doubled (by omega))
        _ ≤ nextCapacity x.capacity need := hge.2

end BigInt

open BigInt (Later Roomy moved)

/-! ## Places -/

def Call.place : Call → Nat → Option Nat
  | .release d, i => if i = d then none else some (if d < i then i - 1 else i)
  | _, i => some i

namespace Workspace

variable {σ : Type}

structure LivesOn (w : Workspace σ) (i : Nat) (w' : Workspace σ) (j : Nat) : Prop where
  there : j < w'.numbers.length
  later : Later (w.number i) (w'.number j)

section Places

variable {w : Workspace σ} {i : Nat}

theorem number_eq (w : Workspace σ) {i : Nat} (hi : i < w.numbers.length) :
    w.number i = w.numbers[i] := by
  rw [number, List.getD_eq_getElem?_getD, List.getElem?_eq_getElem hi]
  rfl

/-- New numbers come after the ones that are there. -/
theorem appended_livesOn (hi : i < w.numbers.length) {w' : Workspace σ} {made : List BigInt}
    (h : w'.numbers = w.numbers ++ made) : LivesOn w i w' i := by
  have hi' : i < w'.numbers.length := by
    rw [h, List.length_append]
    omega
  refine ⟨hi', ?_⟩
  rw [number_eq w hi, number_eq w' hi']
  simp only [h, List.getElem_append_left hi]
  exact .refl _

theorem kept_livesOn (hi : i < w.numbers.length) {w' : Workspace σ}
    (h : w'.numbers = w.numbers) : LivesOn w i w' i :=
  appended_livesOn hi (h.trans (List.append_nil _).symm)

theorem put_livesOn (hi : i < w.numbers.length) {d : Nat} {x : BigInt}
    (hx : Later (w.number d) x) : LivesOn w i (w.put d x) i := by
  have hi' : i < (w.put d x).numbers.length := by
    rw [put, List.length_set]
    exact hi
  refine ⟨hi', ?_⟩
  rw [number_eq _ hi']
  by_cases hd : d = i
  · subst hd
    simpa [put] using hx
  · rw [number_eq w hi]
    simp only [put, List.getElem_set_ne hd]
    exact .refl _

theorem draw_numbers {α : Type} (w : Workspace σ) (made : α → List BigInt)
    (a : StateM σ (Except Fault α)) : ∃ xs, (w.draw made a).numbers = w.numbers ++ xs := by
  unfold draw
  generalize a.run w.source = result
  obtain ⟨r, source⟩ := result
  cases r with
  | error e => exact ⟨[], (List.append_nil _).symm⟩
  | ok r => exact ⟨made r, rfl⟩

theorem draw_livesOn (hi : i < w.numbers.length) {α : Type} (made : α → List BigInt)
    (a : StateM σ (Except Fault α)) : LivesOn w i (w.draw made a) i := by
  obtain ⟨xs, hxs⟩ := w.draw_numbers made a
  exact appended_livesOn hi hxs

theorem keep_livesOn (hi : i < w.numbers.length) {α : Type} (made : α → Reducer) (a : Attempt α) :
    LivesOn w i (w.keep made a) i := by
  apply kept_livesOn hi
  rw [keep]
  cases a.outcome <;> rfl

theorem eraseIdx_livesOn (hi : i < w.numbers.length) {d j : Nat}
    (hj : Call.place (.release d) i = some j) :
    LivesOn w i { w with numbers := w.numbers.eraseIdx d } j := by
  have hentry : (w.numbers.eraseIdx d)[j]? = w.numbers[i]? ∧
      j < (w.numbers.eraseIdx d).length := by
    rw [List.getElem?_eraseIdx, List.length_eraseIdx]
    simp only [Call.place] at hj
    split at hj
    · cases hj
    · next hne =>
      cases hj
      by_cases hd : d < i
      · rw [if_pos hd, if_neg (by omega), show i - 1 + 1 = i by omega]
        refine ⟨rfl, ?_⟩
        split <;> omega
      · rw [if_neg hd, if_pos (by omega)]
        refine ⟨rfl, ?_⟩
        split <;> omega
  have hsame :
      ({ w with numbers := w.numbers.eraseIdx d } : Workspace σ).number j = w.number i := by
    rw [number, number, List.getD_eq_getElem?_getD, List.getD_eq_getElem?_getD, hentry.1]
  refine ⟨hentry.2, ?_⟩
  rw [hsame]
  exact .refl _

variable [Rendition]

theorem step_livesOn (fill : Fill (StateM σ)) (h : w.Sound) (hi : i < w.numbers.length)
    {call : Call} {j : Nat} (hj : call.place i = some j) :
    LivesOn w i (step fill w call) j := by
  cases call with
  | release d => exact eraseIdx_livesOn hi hj
  | randomBits bits odd =>
    cases hj
    exact draw_livesOn hi _ _
  | randomBelow draws k =>
    cases hj
    exact draw_livesOn hi _ _
  | randomRange draws k =>
    cases hj
    exact draw_livesOn hi _ _
  | write op d s t =>
    cases hj
    exact put_livesOn hi (op.write_later (h.number d) (h.number s) (h.number t))
  | assign op d t =>
    cases hj
    exact put_livesOn hi (op.assign_later (h.number d) (h.number t))
  | squareInPlace d =>
    cases hj
    exact put_livesOn hi (BigInt.squareInPlace_later (h.number d))
  | setBit d k =>
    cases hj
    exact put_livesOn hi (BigInt.setBit_later _ k)
  | withSign d negative =>
    cases hj
    exact put_livesOn hi (BigInt.withSign_later _ negative)
  | wipe d =>
    cases hj
    exact put_livesOn hi (BigInt.wipe_later _)
  | divisionReducer k =>
    cases hj
    exact keep_livesOn hi _ _
  | montgomeryContext k =>
    cases hj
    exact keep_livesOn hi _ _
  | reducerFor k =>
    cases hj
    exact keep_livesOn hi _ _
  | releaseReducer r =>
    cases hj
    exact kept_livesOn hi rfl
  | _ =>
    cases hj
    exact appended_livesOn hi rfl

end Places

/-! ## Runs -/

section Runs

variable [Rendition] (fill : Fill (StateM σ))

def follow : List Call → Workspace σ → Nat → Option (Nat × Nat)
  | [], _, i => some (i, 0)
  | call :: calls, w, i => do
    let j ← call.place i
    let (last, moves) ← follow calls (step fill w call) j
    return (last, moved (w.number i) ((step fill w call).number j) + moves)

structure Life (x : BigInt) (moves : Nat) (y : BigInt) : Prop where
  same_owner : y.alloc = x.alloc
  never_less : x.capacity ≤ y.capacity
  roomy : ∀ k, Roomy k x.capacity → Roomy (k + moves) y.capacity

theorem follow_life (calls : List Call) {w : Workspace σ} (h : w.Sound) {i j moves : Nat}
    (hi : i < w.numbers.length) (hf : follow fill calls w i = some (j, moves)) :
    j < (run fill calls w).numbers.length ∧
      Life (w.number i) moves ((run fill calls w).number j) := by
  induction calls generalizing w i moves with
  | nil =>
    cases hf
    exact ⟨hi, rfl, Nat.le_refl _, fun k hk => hk⟩
  | cons call calls ih =>
    obtain ⟨place, hplace, hf⟩ := Option.bind_eq_some_iff.mp hf
    obtain ⟨⟨last, rest⟩, hrest, hf⟩ := Option.bind_eq_some_iff.mp hf
    cases hf
    have hstep := step_livesOn fill h hi hplace
    obtain ⟨hlast, hlife⟩ := ih (step_sound fill h call) hstep.there hrest
    refine ⟨hlast, hlife.same_owner.trans hstep.later.same_owner,
      hstep.later.capacity_le.trans hlife.never_less, fun k hk => ?_⟩
    rw [← Nat.add_assoc]
    exact hlife.roomy _ (hk.later hstep.later)

end Runs

end Workspace

end CryptoPrimitives
