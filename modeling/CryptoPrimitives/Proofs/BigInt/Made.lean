import CryptoPrimitives.BigInt.Bytes
import CryptoPrimitives.BigInt.Euclid
import CryptoPrimitives.BigInt.Radix
import CryptoPrimitives.BigInt.Random
import CryptoPrimitives.BigInt.Shift
import CryptoPrimitives.Proofs.BigInt.Integers

/-!
# The numbers that operations make

A new number is written into an empty one, so it is canonical whatever the operands are; an
operation that changes a number needs only that number to be canonical. Loops are followed by what
each round yields, without a look at the values.
-/

set_option autoImplicit false

namespace CryptoPrimitives

/-! ## What an attempt yields -/

namespace Attempt

variable {α β : Type} {P : β → Prop}

def Yields (P : α → Prop) (a : Attempt α) : Prop := ∀ x, a.outcome = .ok x → P x

theorem Yields.value {b : β} (h : P b) : Yields P (pure b) := by
  intro x hx
  cases hx
  exact h

theorem Yields.fault (e : Fault) : Yields P (throw e) := by
  intro x hx
  cases hx

theorem Yields.lift {b : Booked β} (h : P b.val) : Yields P (liftM b : Attempt β) := by
  intro x hx
  cases hx
  exact h

theorem Yields.bind {Q : α → Prop} {a : Attempt α} {f : α → Attempt β} (ha : Yields Q a)
    (hf : ∀ x, Q x → Yields P (f x)) : Yields P (a >>= f) := by
  intro y hy
  rw [outcome_bind] at hy
  cases hx : a.outcome with
  | error e =>
    rw [hx] at hy
    cases hy
  | ok x =>
    rw [hx] at hy
    exact hf x (ha x hx) y hy

theorem Yields.refused (e : Fault) (f : α → Attempt β) : Yields P (throw e >>= f) := by
  intro x hx
  cases hx

/-- A step whose result does not matter. -/
theorem Yields.after {a : Attempt α} {f : α → Attempt β} (hf : ∀ x, Yields P (f x)) :
    Yields P (a >>= f) :=
  Yields.bind (Q := fun _ => True) (fun _ _ => trivial) fun x _ => hf x

end Attempt

namespace BigInt

open Attempt (Yields)

/-! ## Written numbers -/

theorem write_canonical {x : BigInt} (hx : Canonical x) (limbs : Units) :
    Canonical (x.write limbs).val :=
  (write_written hx limbs).canonical

/-- A new number: limbs written into an empty one. -/
theorem fresh_canonical (alloc : Allocator) (limbs : Units) :
    Canonical ((empty alloc).write limbs).val :=
  write_canonical (empty_canonical alloc) limbs

theorem ofUnits_canonical (limbs : Units) : Canonical (ofUnits limbs).val :=
  fresh_canonical .secure limbs

theorem ofInt64_canonical (v : Int64) : Canonical (ofInt64 v).val :=
  withSign_canonical (ofUnits_canonical _) _

theorem select_canonical (a b : BigInt) (choice : Bool) : Canonical (select a b choice).val :=
  withSign_canonical (ofUnits_canonical _) _

theorem wipe_canonical (x : BigInt) : Canonical x.wipe := by
  refine ⟨Nat.zero_le _, Units.val_zeros _, fun h => absurd rfl h, fun h => by cases h⟩

theorem shiftLeft_canonical (x : BigInt) (k : Nat) : Canonical (x.shiftLeft k).val := by
  unfold shiftLeft
  split
  · exact empty_canonical _
  · exact withSign_canonical (fresh_canonical _ _) _

theorem shiftRight_canonical (x : BigInt) (k : Nat) : Canonical (x.shiftRight k).val := by
  unfold shiftRight
  split
  · exact empty_canonical _
  · exact withSign_canonical (fresh_canonical _ _) _

/-! ## One bit set -/

theorem limb_with_bit_ne_zero (u : Limb) (i : Nat) :
    u ||| (1 <<< (i % Limb.bits).toUInt64) ≠ 0 := by
  have hi : i % 64 < 64 := Nat.mod_lt _ (by decide)
  have hone : (1 : Limb).toNat % 2 ^ (64 - i % 64) = 1 :=
    Nat.mod_eq_of_lt (Nat.one_lt_two_pow (by omega))
  intro h0
  have hbit := (UInt64.or_eq_zero_iff.mp h0).2
  have hval := Units.toNat_shiftLeft 1 (i % 64) hi
  rw [hone, Nat.mul_one] at hval
  have hpos : 0 < 2 ^ (i % 64) := Nat.two_pow_pos _
  change (1 : Limb) <<< (i % 64).toUInt64 = 0 at hbit
  rw [hbit, UInt64.toNat_zero] at hval
  omega

theorem Canonical.clear_past {x : BigInt} (hx : Canonical x) {m : Nat} (hm : x.size ≤ m) :
    ∀ u ∈ x.buffer.drop m, u = 0 := by
  intro u hu
  apply (Units.zero_val_iff _).mp hx.clear_above u
  rw [← Nat.add_sub_cancel' hm, ← List.drop_drop] at hu
  exact List.mem_of_mem_drop hu

theorem Canonical.getD_above {x : BigInt} (hx : Canonical x) {i : Nat} (hi : x.size ≤ i) :
    x.buffer.getD i 0 = 0 := by
  by_cases hlt : i < x.buffer.length
  · apply hx.clear_past hi
    rw [List.drop_eq_getElem_cons hlt, List.getD_eq_getElem?_getD, List.getElem?_eq_getElem hlt]
    exact List.mem_cons_self
  · rw [List.getD_eq_getElem?_getD, List.getElem?_eq_none (by omega)]
    rfl

theorem reserve_canonical {x : BigInt} (hx : Canonical x) (need : Nat) :
    Canonical (x.reserve need).val ∧ need ≤ (x.reserve need).val.capacity := by
  obtain ⟨k, hk, hneed⟩ := reserve_eq x need
  have hsize := hx.size_le
  rw [hk]
  refine ⟨⟨?_, ?_, fun h0 => ?_, hx.sign⟩, ?_⟩
  · simp only [capacity, List.length_append] at *
    omega
  · rw [List.drop_append_of_le_length hsize, Units.val_append, hx.clear_above, Units.val_zeros]
    rfl
  · have htop := hx.top_ne_zero h0
    simp only at h0 ⊢
    rwa [List.getD_eq_getElem?_getD,
      List.getElem?_append_left (by simp only [capacity] at hsize; omega),
      ← List.getD_eq_getElem?_getD]
  · simpa [capacity] using hneed

/-- A limb that is not zero becomes the top one unless the number is longer already. -/
theorem put_canonical {x : BigInt} (hx : Canonical x) {place : Nat} {limb : Limb}
    (hplace : place < x.capacity) (hlimb : limb ≠ 0) :
    Canonical { x with buffer := x.buffer.set place limb, size := max x.size (place + 1) } := by
  have hsize := hx.size_le
  constructor
  · simp only [capacity, List.length_set] at *
    omega
  · rw [Units.zero_val_iff]
    simp only
    rw [List.drop_set_of_lt (by omega)]
    exact hx.clear_past (Nat.le_max_left _ _)
  · intro _
    by_cases htop : x.size ≤ place + 1
    · simp only [max_eq_right htop, Nat.add_sub_cancel]
      simpa [List.getD_eq_getElem?_getD, show place < x.buffer.length from hplace] using hlimb
    · simp only [max_eq_left (Nat.le_of_not_le htop)]
      rw [List.getD_eq_getElem?_getD, List.getElem?_set_ne (by omega),
        ← List.getD_eq_getElem?_getD]
      exact hx.top_ne_zero (by omega)
  · intro _
    simp only
    omega

theorem setBit_canonical {x : BigInt} (hx : Canonical x) (i : Nat) :
    Canonical (x.setBit i).val := by
  obtain ⟨hr, hroom⟩ := reserve_canonical hx (i / Limb.bits + 1)
  exact put_canonical hr hroom (limb_with_bit_ne_zero _ i)

/-! ## The ring operations -/

section Arithmetic

variable [Rendition]

theorem writeSignedSum_canonical {d : BigInt} (hd : Canonical d) (s : BigInt) (sNeg : Bool)
    (t : BigInt) (tNeg : Bool) : Canonical (d.writeSignedSum s sNeg t tNeg).val := by
  unfold writeSignedSum
  split
  · exact withSign_canonical (write_canonical hd _) _
  · split
    · exact withSign_canonical (write_canonical hd _) _
    · exact withSign_canonical (write_canonical hd _) _

theorem RingOp.write_canonical (op : RingOp) {d : BigInt} (hd : Canonical d) (s t : BigInt) :
    Canonical (op.write d s t).val := by
  cases op with
  | sum => exact writeSignedSum_canonical hd s _ t _
  | difference => exact writeSignedSum_canonical hd s _ t _
  | product =>
    simp only [RingOp.write, writeProduct]
    split
    · exact (clear_represents hd 0).canonical
    · exact withSign_canonical (BigInt.write_canonical hd _) _

theorem RingOp.assign_canonical (op : RingOp) {d : BigInt} (hd : Canonical d) (t : BigInt) :
    Canonical (op.assign d t).val := by
  rw [op.assign_eq]
  exact op.write_canonical hd _ t

theorem RingOp.fresh_canonical (op : RingOp) (s t : BigInt) : Canonical (op.fresh s t).val := by
  rw [op.fresh_eq]
  exact op.write_canonical (empty_canonical _) s t

theorem squareInPlace_canonical {d : BigInt} (hd : Canonical d) :
    Canonical d.squareInPlace.val :=
  RingOp.product.write_canonical hd _ _

/-! ## Division and Euclid's algorithm -/

theorem divMod_yields (s t : BigInt) :
    Yields (fun r : BigInt × BigInt => Canonical r.1 ∧ Canonical r.2) (s.divMod t) := by
  unfold divMod
  by_cases h0 : t.isZero = true
  · rw [if_pos h0]
    exact .refused _ _
  · rw [if_neg h0]
    refine .bind (.lift (BigInt.fresh_canonical _ _)) fun q hq => ?_
    refine .bind (.lift (BigInt.fresh_canonical _ _)) fun r hr => ?_
    exact .value ⟨withSign_canonical hq _, withSign_canonical hr _⟩

theorem emod_yields (s m : BigInt) : Yields Canonical (s.emod m) := by
  unfold emod
  refine .bind (divMod_yields s m) fun r hr => .after fun _ => ?_
  split
  · refine .after fun divisor => ?_
    refine .bind (.lift (RingOp.sum.fresh_canonical r.2 divisor)) fun residue h => ?_
    exact .after fun _ => .after fun _ => .value h
  · exact .value hr.2

theorem euclid_yields (steps : Nat) {a b : BigInt} (ha : Canonical a) (hb : Canonical b) :
    Yields Canonical (euclid steps a b) := by
  induction steps generalizing a b with
  | zero => exact .after fun _ => .value ha
  | succ steps ih =>
    unfold euclid
    split
    · exact .after fun _ => .value ha
    · unfold euclidStep
      refine .bind (Q := fun r => Canonical r.1 ∧ Canonical r.2) ?_ fun r hr => ih hr.1 hr.2
      refine .bind (divMod_yields a b) fun r hr => ?_
      exact .after fun _ => .after fun _ => .value ⟨hb, hr.2⟩

theorem gcd_yields (s t : BigInt) : Yields Canonical (s.gcd t) := by
  unfold gcd
  split
  · exact .fault _
  · refine .bind (.lift (abs_canonical s)) fun a ha => ?_
    refine .bind (.lift (abs_canonical t)) fun b hb => ?_
    split
    · exact euclid_yields _ hb ha
    · exact euclid_yields _ ha hb

theorem modInverse_yields (x m : BigInt) : Yields Canonical (x.modInverse m) := by
  unfold modInverse
  by_cases h0 : m.isZero = true
  · rw [if_pos h0]
    exact .refused _ _
  · rw [if_neg h0]
    refine .after fun m => ?_
    by_cases h1 : m.isOne = true
    · rw [if_pos h1]
      exact .after fun _ => .refused _ _
    · rw [if_neg h1]
      refine .after fun oldR => ?_
      by_cases hr : oldR.isZero = true
      · rw [if_pos hr]
        exact .after fun _ => .after fun _ => .refused _ _
      · rw [if_neg hr]
        refine .after fun r => .after fun oldS => .after fun e => .after fun _ => .after fun _ => ?_
        split
        · refine .after fun _ => .bind (emod_yields e.oldS m) fun inverse h => ?_
          exact .after fun _ => .after fun _ => .value h
        · exact .after fun _ => .after fun _ => .after fun _ => .fault _

theorem parse_yields (text : String) (radix : Nat) (alloc : Allocator) :
    Yields Canonical (parse text radix alloc) := by
  unfold parse
  refine .after fun r => .bind (.lift (BigInt.fresh_canonical alloc r.2)) fun x h => ?_
  exact .value (withSign_canonical h _)

end Arithmetic

/-! ## Random numbers -/

section Random

variable {σ : Type}

def Draws {α : Type} (P : α → Prop) (a : StateM σ (Except Fault α)) : Prop :=
  ∀ source x, (a.run source).1 = .ok x → P x

section Rules

variable {α β : Type} {P : α → Prop}

theorem Draws.value {x : α} (h : P x) : Draws P (pure (.ok x) : StateM σ (Except Fault α)) := by
  intro source y hy
  cases hy
  exact h

theorem Draws.fault (e : Fault) : Draws P (pure (.error e) : StateM σ (Except Fault α)) := by
  intro source y hy
  cases hy

theorem Draws.bind {Q : β → Prop} {a : StateM σ (Except Fault β)}
    {f : Except Fault β → StateM σ (Except Fault α)} (ha : Draws Q a)
    (hok : ∀ x, Q x → Draws P (f (.ok x))) (herror : ∀ e, Draws P (f (.error e))) :
    Draws P (a >>= f) := by
  intro source y hy
  change ((f (a.run source).1).run (a.run source).2).1 = .ok y at hy
  cases hx : (a.run source).1 with
  | error e =>
    rw [hx] at hy
    exact herror e _ y hy
  | ok x =>
    rw [hx] at hy
    exact hok x (ha source x hx) _ y hy

end Rules

structure Drawable (P : BigInt → Prop) : Prop where
  zero : P zero
  drawn : ∀ bytes, P (ofBytesBE bytes).val
  bit : ∀ x i, P x → P (x.setBit i).val

theorem canonical_drawable : Drawable Canonical :=
  ⟨empty_canonical _, fun _ => ofUnits_canonical _, fun _ i h => setBit_canonical h i⟩

namespace Drawable

variable {P : BigInt → Prop} (h : Drawable P) (fill : Fill (StateM σ))

include h

theorem withEnds (bits : Nat) (odd : Bool) (bytes : Bytes) :
    P (BigInt.withEnds bits odd bytes) := by
  have hx := h.bit _ (bits - 1) (h.drawn bytes)
  unfold BigInt.withEnds
  split
  · exact h.bit _ 0 hx
  · exact hx

theorem randomBits (bits : Nat) (odd : Bool) : Draws P (randomBits fill bits odd) := by
  unfold BigInt.randomBits
  split
  · exact .value h.zero
  · exact .bind (Q := fun _ => True) (fun _ _ _ => trivial)
      (fun bytes _ => .value (h.withEnds bits odd bytes)) fun e => .fault e

theorem drawBelow (upper : BigInt) (draws : Nat) :
    Draws (fun r => ∀ x ∈ r, P x) (drawBelow fill upper draws) := by
  induction draws with
  | zero => exact .value fun _ h => by cases h
  | succ draws ih =>
    refine .bind (Q := fun _ => True) (fun _ _ _ => trivial) (fun bytes _ => ?_) fun e => .fault e
    simp only
    split
    · refine .value fun x hx => ?_
      cases hx
      exact h.drawn bytes
    · exact ih

theorem randomBelow (draws : Nat) (upper : BigInt) :
    Draws (fun r => ∀ x ∈ r, P x) (randomBelow fill draws upper) := by
  unfold BigInt.randomBelow
  split
  · exact .fault _
  · exact h.drawBelow fill upper draws

theorem drawNonzero (draws : Nat) (upper : BigInt) (rounds : Nat) :
    Draws (fun r => ∀ x ∈ r, P x) (drawNonzero fill draws upper rounds) := by
  induction rounds with
  | zero => exact .value fun _ h => by cases h
  | succ rounds ih =>
    refine .bind (h.randomBelow fill draws upper) (fun r hr => ?_) fun e => .fault e
    cases r with
    | none => exact .value fun _ h => by cases h
    | some candidate =>
      simp only
      split
      · exact ih
      · exact .value hr

theorem randomRange (draws : Nat) (upper : BigInt) :
    Draws (fun r => ∀ x ∈ r, P x) (randomRange fill draws upper) := by
  unfold BigInt.randomRange
  split
  · exact .fault _
  · exact h.drawNonzero fill draws upper draws

end Drawable

variable (fill : Fill (StateM σ))

theorem randomBits_draws (bits : Nat) (odd : Bool) :
    Draws Canonical (randomBits fill bits odd) :=
  canonical_drawable.randomBits fill bits odd

theorem randomBelow_draws (draws : Nat) (upper : BigInt) :
    Draws (fun r => ∀ x ∈ r, Canonical x) (randomBelow fill draws upper) :=
  canonical_drawable.randomBelow fill draws upper

theorem randomRange_draws (draws : Nat) (upper : BigInt) :
    Draws (fun r => ∀ x ∈ r, Canonical x) (randomRange fill draws upper) :=
  canonical_drawable.randomRange fill draws upper

end Random

end BigInt

end CryptoPrimitives
