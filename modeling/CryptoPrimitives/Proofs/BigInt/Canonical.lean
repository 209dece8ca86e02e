import CryptoPrimitives.BigInt.Basic
import CryptoPrimitives.Proofs.Units.Value

/-!
# Canonical numbers

The invariant of the numbers and what the storage operations do to it. Everything that writes a
number ends in `write`, which is canonical whatever the number held before.
-/

set_option autoImplicit false

namespace CryptoPrimitives

/-! ## The value of an attempt -/

namespace Attempt

variable {α β : Type}

def outcome (a : Attempt α) : Except Fault α := a.run.val

@[simp] theorem outcome_lift (x : Booked α) : outcome (liftM x : Attempt α) = .ok x.val := rfl

theorem outcome_bind (x : Attempt α) (f : α → Attempt β) :
    outcome (x >>= f) = (outcome x).bind fun a => outcome (f a) := by
  simp only [outcome, ExceptT.run, bind, ExceptT.bind, ExceptT.mk]
  cases hx : x.val <;> rfl

theorem outcome_bind_ok {x : Attempt α} {a : α} (f : α → Attempt β) (h : outcome x = .ok a) :
    outcome (x >>= f) = outcome (f a) := by
  rw [outcome_bind, h]
  rfl

theorem outcome_bind_error {x : Attempt α} {e : Fault} (f : α → Attempt β)
    (h : outcome x = .error e) : outcome (x >>= f) = .error e := by
  rw [outcome_bind, h]
  rfl

def answer (a : Attempt BigInt) : Except Fault Int := a.outcome.map BigInt.toInt

theorem answer_ok {a : Attempt BigInt} {x : BigInt} (h : a.outcome = .ok x) :
    a.answer = .ok x.toInt := by
  rw [answer, h]
  rfl

theorem answer_error {a : Attempt BigInt} {e : Fault} (h : a.outcome = .error e) :
    a.answer = .error e := by
  rw [answer, h]
  rfl

end Attempt

namespace BigInt

/-! ## The invariant -/

structure Canonical (x : BigInt) : Prop where
  size_le : x.size ≤ x.capacity
  clear_above : Units.val (x.buffer.drop x.size) = 0
  top_ne_zero : x.size ≠ 0 → x.buffer.getD (x.size - 1) 0 ≠ 0
  sign : x.negative = true → x.size ≠ 0

def signed (negative : Bool) (magnitude : Nat) : Int :=
  if negative then -(magnitude : Int) else magnitude

theorem toInt_eq (x : BigInt) : x.toInt = signed x.negative x.magnitude := rfl

theorem signed_natAbs (negative : Bool) (m : Nat) : (signed negative m).natAbs = m := by
  cases negative <;> simp [signed]

theorem toInt_natAbs (x : BigInt) : x.toInt.natAbs = x.magnitude := signed_natAbs _ _

theorem toInt_of_pos {x : BigInt} (h : 0 < x.toInt) : x.toInt = x.magnitude := by
  have hm := toInt_natAbs x
  omega

theorem signed_zero (negative : Bool) : signed negative 0 = 0 := by
  cases negative <;> rfl

theorem signed_mul (a b : Bool) (m n : Nat) :
    signed (a != b) (m * n) = signed a m * signed b n := by
  cases a <;> cases b <;> simp [signed]

theorem signed_neg_iff (negative : Bool) (m : Nat) :
    signed negative m < 0 ↔ negative = true ∧ m ≠ 0 := by
  cases negative
  · simp [signed]
  · simp [signed]
    omega

namespace Canonical

variable {x : BigInt}

theorem length_units (h : Canonical x) : x.units.length = x.size := by
  rw [units, List.length_take]
  exact Nat.min_eq_left h.size_le

theorem magnitude_eq (h : Canonical x) : x.magnitude = Units.val x.buffer := by
  rw [magnitude, units, Units.val_take_drop x.buffer x.size h.size_le, h.clear_above, Nat.mul_zero,
    Nat.add_zero]

theorem top_unit (h : Canonical x) (h0 : x.size ≠ 0) :
    x.units.getD (x.units.length - 1) 0 ≠ 0 := by
  have htop := h.top_ne_zero h0
  rw [h.length_units, units]
  simpa [List.getD_eq_getElem?_getD, List.getElem?_take, show x.size - 1 < x.size by omega]
    using htop

theorem magnitude_lower (h : Canonical x) (h0 : x.size ≠ 0) :
    2 ^ (64 * (x.size - 1)) ≤ x.magnitude := by
  by_contra hlt
  apply h.top_unit h0
  apply UInt64.toNat_inj.mp
  rw [magnitude, Nat.not_le] at hlt
  rw [h.length_units, Units.limb_at, Nat.div_eq_of_lt hlt, Nat.zero_mod]
  rfl

theorem size_eq_zero_iff (h : Canonical x) : x.size = 0 ↔ x.magnitude = 0 := by
  constructor
  · intro h0
    simp [magnitude, units, h0]
  · intro hm
    by_contra h0
    have hlow := h.magnitude_lower h0
    have hpos : 0 < 2 ^ (64 * (x.size - 1)) := Nat.two_pow_pos _
    omega

theorem toInt_eq_zero_iff (h : Canonical x) : x.toInt = 0 ↔ x.size = 0 := by
  rw [h.size_eq_zero_iff, ← toInt_natAbs, Int.natAbs_eq_zero]

theorem isZero_iff (h : Canonical x) : x.isZero = true ↔ x.toInt = 0 := by
  rw [isZero, beq_iff_eq, h.toInt_eq_zero_iff]

theorem negative_iff (h : Canonical x) : x.negative = true ↔ x.toInt < 0 := by
  have hmag := h.size_eq_zero_iff
  have hsign := h.sign
  rw [toInt_eq]
  cases hn : x.negative
  · simp [signed]
  · simp only [signed, if_true, true_iff]
    have h0 := hsign hn
    omega

/-- The size is the least number of limbs for the magnitude. -/
theorem size_le_iff (h : Canonical x) (k : Nat) : x.size ≤ k ↔ x.magnitude < 2 ^ (64 * k) := by
  have hlt := Units.val_lt x.units
  rw [h.length_units] at hlt
  constructor
  · intro hk
    exact hlt.trans_le (Nat.pow_le_pow_right (by decide) (by omega))
  · intro hm
    by_contra hk
    have hlow := h.magnitude_lower (by omega)
    have hpow : 2 ^ (64 * k) ≤ 2 ^ (64 * (x.size - 1)) :=
      Nat.pow_le_pow_right (by decide) (by omega)
    omega

/-- Two canonical numbers of one magnitude have the same limbs. -/
theorem units_congr {y : BigInt} (hx : Canonical x) (hy : Canonical y)
    (h : x.magnitude = y.magnitude) : x.units = y.units := by
  apply Units.val_injective _ _ _ h
  rw [hx.length_units, hy.length_units]
  apply le_antisymm
  · rw [hx.size_le_iff, h, ← hy.size_le_iff]
  · rw [hy.size_le_iff, ← h, ← hx.size_le_iff]

/-- Canonical numbers of one value have the same sign and the same limbs. -/
theorem toInt_eq_iff {y : BigInt} (hx : Canonical x) (hy : Canonical y) :
    x.toInt = y.toInt ↔ x.negative = y.negative ∧ x.units = y.units := by
  constructor
  · intro h
    refine ⟨?_, hx.units_congr hy ?_⟩
    · rw [Bool.eq_iff_iff, hx.negative_iff, hy.negative_iff, h]
    · rw [← toInt_natAbs, ← toInt_natAbs, h]
  · rintro ⟨hn, hu⟩
    rw [toInt, toInt, magnitude, magnitude, hn, hu]

end Canonical

/-! ## Storage -/

theorem empty_canonical (alloc : Allocator) : Canonical (empty alloc) :=
  ⟨Nat.le_refl 0, rfl, fun h => absurd rfl h, fun h => by cases h⟩

theorem next_capacity_ge (held need : Nat) : need ≤ Allocator.nextCapacity held need := by
  unfold Allocator.nextCapacity Allocator.granularity
  have hm := Nat.le_max_left need (held * 2)
  omega

/-- Reserving only appends zero limbs. -/
theorem reserve_eq (x : BigInt) (need : Nat) :
    ∃ k, (x.reserve need).val = { x with buffer := x.buffer ++ Units.zeros k } ∧
      need ≤ x.capacity + k := by
  unfold reserve
  by_cases hle : need ≤ x.capacity
  · refine ⟨0, ?_, by omega⟩
    simp [hle, Units.zeros]
  · have hcap := next_capacity_ge x.capacity need
    refine ⟨Allocator.nextCapacity x.capacity need - x.capacity, ?_, by omega⟩
    rw [if_neg hle]
    by_cases hempty : x.buffer = []
    · simp [hempty, Allocator.take, capacity]
    · simp only [List.isEmpty_iff, hempty, if_false, Allocator.grow, Recorded.val_bind,
        Recorded.val_pure, Supply.extend_zeroing]
      rfl

theorem clear_eq (x : BigInt) (hx : Canonical x) (need : Nat) :
    ∃ k, (x.clear need).val = ⟨Units.zeros (x.capacity + k), 0, false, x.alloc⟩ ∧
      need ≤ x.capacity + k := by
  obtain ⟨k, hk, hneed⟩ := reserve_eq x need
  refine ⟨k, ?_, hneed⟩
  have hsize := hx.size_le
  have habove : (x.buffer ++ Units.zeros k).drop (max x.size need) =
      Units.zeros (x.capacity + k - max x.size need) := by
    have hz := Units.eq_zeros ((x.buffer ++ Units.zeros k).drop (max x.size need)) (by
      rw [Units.val_drop _ _ (by
          rw [List.length_append, Units.length_zeros]
          exact max_le (by unfold capacity at *; omega) hneed),
        Units.val_append, Units.val_zeros, Nat.mul_zero, Nat.add_zero, ← hx.magnitude_eq]
      apply Nat.div_eq_of_lt
      exact (hx.size_le_iff _).mp (Nat.le_max_left _ _))
    rw [hz, List.length_drop, List.length_append, Units.length_zeros]
    rfl
  have hused : max x.size need ≤ x.capacity + k := max_le (by omega) hneed
  simp only [clear, Recorded.val_bind, Recorded.val_pure, hk, habove]
  rw [Units.zeros, Units.zeros, List.replicate_append_replicate, Nat.add_sub_cancel' hused]
  rfl

/-! ## Writing a number -/

theorem trim_canonical (x : BigInt) : Canonical x.trim := by
  constructor
  · exact Units.significant_le x.buffer
  · exact Units.val_drop_significant x.buffer
  · exact Units.top_limb_ne_zero x.buffer
  · intro hn
    simp only [trim, Bool.and_eq_true, bne_iff_ne] at hn
    exact hn.2

structure Written (x y : BigInt) (m : Nat) : Prop where
  canonical : Canonical y
  magnitude_eq : y.magnitude = m
  nonneg : y.negative = false
  alloc_eq : y.alloc = x.alloc

theorem write_written {x : BigInt} (hx : Canonical x) (limbs : Units) :
    Written x (x.write limbs).val (Units.val limbs) := by
  obtain ⟨k, hk, hneed⟩ := clear_eq x hx limbs.length
  have hval : Units.val (limbs ++ (Units.zeros (x.capacity + k)).drop limbs.length) =
      Units.val limbs := by
    rw [Units.val_append, Units.zeros, List.drop_replicate, ← Units.zeros, Units.val_zeros,
      Nat.mul_zero, Nat.add_zero]
  have htrim : (x.write limbs).val =
      trim ⟨limbs ++ (Units.zeros (x.capacity + k)).drop limbs.length, 0, false, x.alloc⟩ := by
    simp only [write, Recorded.val_bind, Recorded.val_pure, hk]
  rw [htrim]
  refine ⟨trim_canonical _, ?_, rfl, rfl⟩
  rw [(trim_canonical _).magnitude_eq]
  exact hval

theorem Written.toInt_eq {x y : BigInt} {m : Nat} (h : Written x y m) : y.toInt = m := by
  rw [BigInt.toInt_eq, h.nonneg, h.magnitude_eq]
  rfl

theorem withSign_magnitude (x : BigInt) (negative : Bool) :
    (x.withSign negative).magnitude = x.magnitude := rfl

theorem withSign_canonical {x : BigInt} (hx : Canonical x) (negative : Bool) :
    Canonical (x.withSign negative) := by
  refine ⟨hx.size_le, hx.clear_above, hx.top_ne_zero, ?_⟩
  intro hn
  simp only [withSign, Bool.and_eq_true, bne_iff_ne] at hn
  exact hn.2

theorem withSign_toInt {x : BigInt} (hx : Canonical x) (negative : Bool) :
    (x.withSign negative).toInt = signed negative x.magnitude := by
  rw [toInt_eq, withSign_magnitude]
  by_cases h0 : x.size = 0
  · rw [hx.size_eq_zero_iff.mp h0, signed_zero, signed_zero]
  · have hkeep : (x.size != 0) = true := bne_iff_ne.mpr h0
    rw [withSign, hkeep, Bool.and_true]

structure Represents (x : BigInt) (v : Int) : Prop where
  canonical : Canonical x
  toInt_eq : x.toInt = v

theorem Represents.magnitude_eq {x : BigInt} {n : Nat} (h : Represents x (n : Int)) :
    x.magnitude = n := by
  rw [← toInt_natAbs, h.toInt_eq, Int.natAbs_natCast]

theorem Written.represents {x y : BigInt} {m : Nat} (h : Written x y m) (negative : Bool) :
    Represents (y.withSign negative) (signed negative m) :=
  ⟨withSign_canonical h.canonical negative, by
    rw [withSign_toInt h.canonical, h.magnitude_eq]⟩

theorem clear_represents {x : BigInt} (hx : Canonical x) (need : Nat) :
    Represents (x.clear need).val 0 := by
  obtain ⟨k, hk, -⟩ := clear_eq x hx need
  rw [hk]
  refine ⟨⟨Nat.zero_le _, Units.val_zeros _, fun h => absurd rfl h, fun h => by cases h⟩, rfl⟩

/-! ## Copies -/

theorem copy_canonical {x : BigInt} (hx : Canonical x) : Canonical x.copy.val := by
  have hw := write_written (empty_canonical x.alloc) x.units
  refine ⟨hw.canonical.size_le, hw.canonical.clear_above, hw.canonical.top_ne_zero, ?_⟩
  intro hn h0
  have hm := hw.canonical.size_eq_zero_iff.mp h0
  rw [hw.magnitude_eq] at hm
  exact hx.sign hn (hx.size_eq_zero_iff.mpr hm)

theorem copy_magnitude (x : BigInt) : x.copy.val.magnitude = x.magnitude :=
  (write_written (empty_canonical x.alloc) x.units).magnitude_eq

theorem copy_toInt (x : BigInt) : x.copy.val.toInt = x.toInt := by
  rw [toInt_eq, toInt_eq, copy_magnitude]
  rfl

theorem abs_canonical (x : BigInt) : Canonical x.abs.val := by
  have hw := write_written (empty_canonical x.alloc) x.units
  exact ⟨hw.canonical.size_le, hw.canonical.clear_above, hw.canonical.top_ne_zero,
    fun hn => by cases hn⟩

theorem abs_toInt (x : BigInt) : x.abs.val.toInt = |x.toInt| := by
  rw [Int.abs_eq_natAbs, toInt_natAbs, ← copy_magnitude]
  rfl

end BigInt

end CryptoPrimitives
