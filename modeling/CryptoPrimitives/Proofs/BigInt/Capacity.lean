import CryptoPrimitives.Proofs.BigInt.Made
import Mathlib.Order.Bounds.Basic

/-!
# Room and growth

Everything that changes a number in place first makes room for its result, and then asks the
allocator for nothing more. Making room is a no-op if the result fits; otherwise one buffer is
taken, at least twice as large, which starts with what the number held, and the old one goes back
wiped.
-/

set_option autoImplicit false

namespace CryptoPrimitives

/-! ## The next capacity -/

namespace Allocator

/-- The next capacity is the least multiple of the granularity that is neither less than what is
needed nor less than double what is held. -/
theorem nextCapacity_isLeast (held need : Nat) :
    IsLeast {m | granularity ∣ m ∧ max need (2 * held) ≤ m} (nextCapacity held need) := by
  unfold nextCapacity granularity
  rw [Nat.mul_comm held]
  constructor
  · exact ⟨Nat.dvd_mul_left _ _, by omega⟩
  · rintro m ⟨⟨k, rfl⟩, hm⟩
    omega

theorem granularity_dvd_nextCapacity (held need : Nat) :
    granularity ∣ nextCapacity held need :=
  (nextCapacity_isLeast held need).1.1

theorem nextCapacity_ge (held need : Nat) :
    need ≤ nextCapacity held need ∧ 2 * held ≤ nextCapacity held need :=
  max_le_iff.mp (nextCapacity_isLeast held need).1.2

end Allocator

namespace BigInt

open Allocator (nextCapacity)

/-! ## Making room -/

theorem reserve_fits {x : BigInt} {need : Nat} (h : need ≤ x.capacity) :
    x.reserve need = pure x := by
  rw [reserve, if_pos h]

def moveEntries (x : BigInt) (need : Nat) : List Ledger.Entry :=
  .taken x.alloc (nextCapacity x.capacity need) ::
    if x.capacity = 0 then [] else [.returned x.alloc (Units.zeros x.capacity)]

theorem reserve_outgrown {x : BigInt} {need : Nat} (h : x.capacity < need) :
    x.reserve need = ⟨{ x with
      buffer := x.buffer ++ Units.zeros (nextCapacity x.capacity need - x.capacity) },
      moveEntries x need⟩ := by
  rw [reserve, if_neg (by omega)]
  by_cases h0 : x.buffer = []
  · have hzero : x.capacity = 0 := by rw [capacity, h0, List.length_nil]
    rw [moveEntries, if_pos hzero]
    simp only [h0, List.isEmpty_nil, if_true, hzero]
    rfl
  · have hzero : x.capacity ≠ 0 := fun hz => h0 (List.length_eq_zero_iff.mp hz)
    rw [moveEntries, if_neg hzero]
    apply Recorded.ext
    · simp only [List.isEmpty_iff, h0, if_false, Allocator.grow, Recorded.val_bind,
        Recorded.val_pure, Supply.extend_zeroing]
      rfl
    · simp only [List.isEmpty_iff, h0, if_false]
      rfl

theorem capacity_reserve (x : BigInt) (need : Nat) : (x.reserve need).val.capacity =
    if need ≤ x.capacity then x.capacity else nextCapacity x.capacity need := by
  split
  · next h => rw [reserve_fits h, Recorded.val_pure]
  · next h =>
    have hcap := Allocator.nextCapacity_ge x.capacity need
    rw [reserve_outgrown (by omega)]
    simp only [capacity, List.length_append, Units.length_zeros]
    unfold capacity at hcap
    omega

theorem reserve_entries (x : BigInt) (need : Nat) : (x.reserve need).entries =
    if need ≤ x.capacity then [] else moveEntries x need := by
  split
  · next h => rw [reserve_fits h, Recorded.entries_pure]
  · next h => rw [reserve_outgrown (by omega)]

theorem need_le_reserve (x : BigInt) (need : Nat) : need ≤ (x.reserve need).val.capacity := by
  have hcap := Allocator.nextCapacity_ge x.capacity need
  rw [capacity_reserve]
  split <;> omega

theorem capacity_le_reserve (x : BigInt) (need : Nat) :
    x.capacity ≤ (x.reserve need).val.capacity := by
  have hcap := Allocator.nextCapacity_ge x.capacity need
  rw [capacity_reserve]
  split <;> omega

/-- The number stays what it is, in front of a buffer with zeros behind what it held. -/
theorem reserve_keeps (x : BigInt) (need : Nat) : ∃ k,
    (x.reserve need).val = { x with buffer := x.buffer ++ Units.zeros k } := by
  obtain ⟨k, hk, -⟩ := reserve_eq x need
  exact ⟨k, hk⟩

theorem reserve_size (x : BigInt) (need : Nat) : (x.reserve need).val.size = x.size := by
  obtain ⟨k, hk⟩ := reserve_keeps x need
  rw [hk]

theorem reserve_alloc (x : BigInt) (need : Nat) : (x.reserve need).val.alloc = x.alloc := by
  obtain ⟨k, hk⟩ := reserve_keeps x need
  rw [hk]

/-! ## Changes that make room first -/

structure Grows (need : Nat) (change : BigInt → Booked BigInt) (x : BigInt) : Prop where
  room_first : change x = x.reserve need >>= change
  quiet : (change (x.reserve need).val).entries = []
  same_room : (change (x.reserve need).val).val.capacity = (x.reserve need).val.capacity
  same_owner : (change (x.reserve need).val).val.alloc = x.alloc

namespace Grows

variable {need : Nat} {change : BigInt → Booked BigInt} {x : BigInt}

theorem val_eq (h : Grows need change x) : (change x).val = (change (x.reserve need).val).val := by
  have hval := congrArg Recorded.val h.room_first
  rwa [Recorded.val_bind] at hval

theorem entries_eq (h : Grows need change x) : (change x).entries = (x.reserve need).entries := by
  have hentries := congrArg Recorded.entries h.room_first
  rwa [Recorded.entries_bind, h.quiet, List.append_nil] at hentries

theorem capacity_eq (h : Grows need change x) :
    (change x).val.capacity = (x.reserve need).val.capacity := by
  rw [h.val_eq, h.same_room]

theorem alloc_eq (h : Grows need change x) : (change x).val.alloc = x.alloc := by
  rw [h.val_eq, h.same_owner]

theorem capacity_le (h : Grows need change x) : x.capacity ≤ (change x).val.capacity := by
  rw [h.capacity_eq]
  exact capacity_le_reserve x need

/-- What is done to the number after the change does not touch the buffer. -/
theorem andThen (h : Grows need change x) (f : BigInt → BigInt)
    (hcap : ∀ y, (f y).capacity = y.capacity) (halloc : ∀ y, (f y).alloc = y.alloc) :
    Grows need (fun x => do return f (← change x)) x := by
  refine ⟨?_, ?_, ?_, ?_⟩
  · apply Recorded.ext
    · simp only [Recorded.val_bind, Recorded.val_pure, h.val_eq]
    · simp only [Recorded.entries_bind, Recorded.entries_pure, List.append_nil, h.entries_eq,
        h.quiet]
  · simpa using h.quiet
  · simpa [hcap] using h.same_room
  · simpa [halloc] using h.same_owner

end Grows

variable {x : BigInt}

theorem clear_fits {length : Nat} (h : length ≤ x.capacity) (hx : x.size ≤ x.capacity) :
    (x.clear length).entries = [] ∧ (x.clear length).val.capacity = x.capacity ∧
      (x.clear length).val.alloc = x.alloc := by
  refine ⟨?_, ?_, ?_⟩
  · rw [clear, reserve_fits h]
    rfl
  · have hused : max x.size length ≤ x.buffer.length := max_le hx h
    simp only [clear, reserve_fits h, Recorded.val_bind, Recorded.val_pure, capacity,
      List.length_append, Units.length_zeros, List.length_drop]
    omega
  · rw [clear, reserve_fits h]
    rfl

theorem clear_room_first (x : BigInt) (length : Nat) :
    x.clear length = x.reserve length >>= fun y => y.clear length := by
  have hfits := reserve_fits (need_le_reserve x length)
  apply Recorded.ext
  · simp only [clear, Recorded.val_bind, Recorded.val_pure, hfits]
  · simp only [clear, Recorded.entries_bind, Recorded.entries_pure, hfits, List.append_nil]

theorem clear_grows (hx : x.size ≤ x.capacity) (length : Nat) :
    Grows length (fun x => x.clear length) x := by
  have hsize : (x.reserve length).val.size ≤ (x.reserve length).val.capacity := by
    rw [reserve_size]
    exact hx.trans (capacity_le_reserve x length)
  obtain ⟨hquiet, hcap, halloc⟩ := clear_fits (need_le_reserve x length) hsize
  exact ⟨clear_room_first x length, hquiet, hcap, halloc.trans (reserve_alloc x length)⟩

theorem write_grows (hx : x.size ≤ x.capacity) (limbs : Units) :
    Grows limbs.length (fun x => x.write limbs) x := by
  have h := clear_grows hx limbs.length
  have hroom : limbs.length ≤ (x.clear limbs.length).val.capacity := by
    rw [h.capacity_eq]
    exact need_le_reserve x limbs.length
  refine ⟨?_, ?_, ?_, h.same_owner⟩
  · have hfirst : x.clear limbs.length = _ := h.room_first
    apply Recorded.ext
    · simp only [write, Recorded.val_bind, hfirst]
    · simp only [write, Recorded.entries_bind, Recorded.entries_pure, List.append_nil, hfirst]
  · simpa [write] using h.quiet
  · rw [← h.same_room]
    rw [h.val_eq] at hroom
    simp only [write, trim, Recorded.val_bind, Recorded.val_pure, capacity, List.length_append,
      List.length_drop] at hroom ⊢
    omega

theorem setBit_grows (x : BigInt) (i : Nat) :
    Grows (i / Limb.bits + 1) (fun x => x.setBit i) x := by
  have hfits := reserve_fits (need_le_reserve x (i / Limb.bits + 1))
  refine ⟨?_, ?_, ?_, ?_⟩
  · apply Recorded.ext
    · simp only [setBit, Recorded.val_bind, Recorded.val_pure, hfits]
    · simp only [setBit, Recorded.entries_bind, Recorded.entries_pure, hfits, List.append_nil]
  · simp only [setBit, Recorded.entries_bind, Recorded.entries_pure, hfits, List.append_nil]
  · simp only [setBit, Recorded.val_bind, Recorded.val_pure, hfits, capacity, List.length_set]
  · simp only [setBit, Recorded.val_bind, Recorded.val_pure, hfits]
    exact reserve_alloc x _

/-! ## Result areas -/

end BigInt

namespace Units

variable [Rendition]

theorem length_add (s t : Units) : (add s t).length = max s.length t.length + 1 := by
  have halign : ∀ long short : Units, short.length ≤ long.length →
      (addCarry (long.take short.length) short 0).1.length = short.length :=
    fun long short h => length_addCarry _ _ _ (by rw [List.length_take, Nat.min_eq_left h]) |>.trans
      (by rw [List.length_take, Nat.min_eq_left h])
  unfold add
  by_cases h : t.length ≤ s.length
  · simp only [h, if_true, List.length_append, length_addLimb, List.length_drop,
      List.length_singleton, halign s t h]
    omega
  · simp only [h, if_false, List.length_append, length_addLimb, List.length_drop,
      List.length_singleton, halign t s (by omega)]
    omega

end Units

namespace BigInt

open Allocator (nextCapacity)

def signedArea (s : BigInt) (sNeg : Bool) (t : BigInt) (tNeg : Bool) : Nat :=
  if sNeg = tNeg then max s.size t.size + 1
  else if s.magnitude < t.magnitude then t.size else s.size

def RingOp.area : RingOp → BigInt → BigInt → Nat
  | sum, s, t => signedArea s s.negative t t.negative
  | difference, s, t => signedArea s s.negative t (!t.negative && !t.isZero)
  | product, s, t => if s.isZero || t.isZero then 0 else s.size + t.size

theorem copy_size {x : BigInt} (hx : Canonical x) : x.copy.val.size = x.size := by
  have hunits := (copy_canonical hx).units_congr hx (copy_magnitude x)
  rw [← (copy_canonical hx).length_units, hunits, hx.length_units]

/-- A copy needs the room that the number needs. -/
theorem RingOp.area_copy (op : RingOp) {d : BigInt} (hd : Canonical d) (t : BigInt) :
    op.area d.copy.val t = op.area d t := by
  have hsize := copy_size hd
  have hmag := copy_magnitude d
  have hneg : d.copy.val.negative = d.negative := rfl
  cases op with
  | sum => simp only [RingOp.area, signedArea, hsize, hmag, hneg]
  | difference =>
    simp only [RingOp.area, signedArea, hsize, hmag, hneg]
  | product =>
    simp only [RingOp.area, isZero, hsize]
    rfl

section Operations

variable [Rendition] {d s t : BigInt}

theorem signedSum_grows (hd : d.size ≤ d.capacity) (hs : Canonical s) (ht : Canonical t)
    (sNeg tNeg : Bool) : Grows (signedArea s sNeg t tNeg)
      (fun d => d.writeSignedSum s sNeg t tNeg) d := by
  have hsign : ∀ (limbs : Units) (negative : Bool),
      Grows limbs.length (fun d => do return (← d.write limbs).withSign negative) d :=
    fun limbs negative => (write_grows hd limbs).andThen (fun y => y.withSign negative)
      (fun _ => rfl) (fun _ => rfl)
  unfold writeSignedSum signedArea
  by_cases hsum : sNeg = tNeg
  · simp only [hsum, if_true]
    rw [← hs.length_units, ← ht.length_units, ← Units.length_add]
    exact hsign _ _
  · simp only [hsum, if_false, compareAbs_lt_iff]
    by_cases hlt : s.magnitude < t.magnitude
    · simp only [hlt, if_true]
      rw [← ht.length_units, ← Units.length_sub _ _ (length_units_le ht hs hlt.le)]
      exact hsign _ _
    · simp only [hlt, if_false]
      rw [← hs.length_units, ← Units.length_sub _ _ (length_units_le hs ht (by omega))]
      exact hsign _ _

theorem RingOp.write_grows (op : RingOp) (hd : d.size ≤ d.capacity) (hs : Canonical s)
    (ht : Canonical t) : Grows (op.area s t) (fun d => op.write d s t) d := by
  cases op with
  | sum => exact signedSum_grows hd hs ht _ _
  | difference => exact signedSum_grows hd hs ht _ _
  | product =>
    simp only [RingOp.write, RingOp.area, writeProduct]
    by_cases h0 : (s.isZero || t.isZero) = true
    · simp only [h0, if_true]
      exact clear_grows hd 0
    · simp only [h0]
      rw [if_neg (by simp), ← hs.length_units, ← ht.length_units, ← Units.length_mul]
      exact (BigInt.write_grows hd _).andThen (fun y => y.withSign (s.negative != t.negative))
        (fun _ => rfl) (fun _ => rfl)

theorem RingOp.assign_stages (op : RingOp) (d t : BigInt) : op.assign d t = do
    let s ← d.copy
    let r ← op.write d s t
    s.release
    return r := by
  cases op <;> rfl

end Operations

/-! ## What a change asks for -/

/-- A change of a number in place whose result needs so many limbs. If they fit, the allocator is
asked for nothing for the number. If not, it is asked for one buffer, of the least multiple of four
limbs that is neither less than the need nor less than double the capacity, the old one goes back
wiped, and the change is made in the new buffer, which starts with all that the old one held.
What is booked before and after is not for the number but for a copy of it. -/
structure GrowsOnce (x : BigInt) (need : Nat) (change : BigInt → Booked BigInt)
    (before after : List Ledger.Entry) (made : Booked BigInt) : Prop where
  fits : need ≤ x.capacity →
    made.entries = before ++ after ∧ made.val = (change x).val ∧ made.val.capacity = x.capacity
  outgrown : x.capacity < need → ∃ length : Nat,
    IsLeast {m | 4 ∣ m ∧ max need (2 * x.capacity) ≤ m} length ∧
    made.entries = before ++ .taken x.alloc length ::
      (if x.capacity = 0 then [] else [.returned x.alloc (Units.zeros x.capacity)]) ++ after ∧
    made.val.capacity = length ∧
    let moved := { x with buffer := x.buffer ++ Units.zeros (length - x.capacity) }
    (change moved).entries = [] ∧ made.val = (change moved).val

variable {x : BigInt} {need : Nat} {change : BigInt → Booked BigInt}

theorem Grows.growsOnce (h : Grows need change x) {before after : List Ledger.Entry}
    {made : Booked BigInt} (hval : made.val = (change x).val)
    (hentries : made.entries = before ++ (change x).entries ++ after) :
    GrowsOnce x need change before after made := by
  have hbooked := h.entries_eq
  have hcap := h.capacity_eq
  rw [reserve_entries] at hbooked
  rw [capacity_reserve] at hcap
  refine ⟨fun hfits => ?_, fun hout => ⟨nextCapacity x.capacity need, ?_⟩⟩
  · rw [if_pos hfits] at hbooked hcap
    rw [hval, hentries, hbooked, List.append_nil]
    exact ⟨rfl, rfl, hcap⟩
  · have hmoved := reserve_outgrown hout
    have hquiet := h.quiet
    have hsame := h.val_eq
    rw [if_neg (by omega)] at hbooked hcap
    rw [hmoved] at hquiet hsame
    refine ⟨Allocator.nextCapacity_isLeast _ _, ?_, by rw [hval, hcap], hquiet, by rw [hval, hsame]⟩
    rw [hentries, hbooked]
    rfl

structure ChangesGrowOnce [Rendition] (d s t : BigInt) : Prop where
  write : ∀ op : RingOp,
    GrowsOnce d (op.area s t) (fun x => op.write x s t) [] [] (op.write d s t)
  assign : ∀ op : RingOp, GrowsOnce d (op.area d t) (fun x => op.write x d.copy.val t)
    d.copy.entries d.copy.val.release.entries (op.assign d t)
  square : GrowsOnce d (RingOp.product.area d d)
    (fun x => RingOp.product.write x d.copy.val d.copy.val)
    d.copy.entries d.copy.val.release.entries d.squareInPlace
  setBit : ∀ i, GrowsOnce d (i / 64 + 1) (fun x => x.setBit i) [] [] (d.setBit i)

theorem changes_grow_once [Rendition] {d s t : BigInt} (hd : Canonical d) (hs : Canonical s)
    (ht : Canonical t) : ChangesGrowOnce d s t := by
  have hc := copy_canonical hd
  constructor
  · intro op
    exact (op.write_grows hd.size_le hs ht).growsOnce rfl (by simp)
  · intro op
    have h := op.write_grows hd.size_le hc ht
    rw [op.area_copy hd] at h
    refine h.growsOnce (op.assign_eq d t) ?_
    rw [op.assign_stages]
    simp [List.append_assoc]
  · have h := RingOp.product.write_grows hd.size_le hc hc
    have harea : RingOp.product.area d.copy.val d.copy.val = RingOp.product.area d d := by
      simp only [RingOp.area, isZero, copy_size hd]
      rfl
    rw [harea] at h
    refine h.growsOnce rfl ?_
    simp [squareInPlace, RingOp.write, List.append_assoc]
  · intro i
    exact (setBit_grows d i).growsOnce rfl (by simp)

end BigInt

end CryptoPrimitives
