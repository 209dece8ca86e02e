import CryptoPrimitives.BigInt.Order
import CryptoPrimitives.Proofs.BigInt.Arithmetic
import CryptoPrimitives.Proofs.BigInt.Shift

/-!
# Numbers as the ring of integers

Each ring operation comes in three forms: into a destination, in place on a copy of the
destination, and as a new number. All of them leave the exact integer in canonical form, so their
results have one sign and one list of limbs, whatever the destination held. Up to that equality the
numbers are a commutative ring, and each integer is one of them.
-/

set_option autoImplicit false

namespace CryptoPrimitives.BigInt

/-! ## Equality -/

theorem same_iff {x y : BigInt} (hx : Canonical x) (hy : Canonical y) :
    x.same y = true ↔ x.toInt = y.toInt := by
  rw [same, Bool.and_eq_true, beq_iff_eq, beq_iff_eq, hx.toInt_eq_iff hy]

/-- Two numbers are equal when the integers that they stand for are. -/
theorem Represents.same_of_eq {x y : BigInt} {v w : Int} (hx : Represents x v)
    (hy : Represents y w) (h : v = w) : x.same y = true := by
  rw [same_iff hx.canonical hy.canonical, hx.toInt_eq, hy.toInt_eq, h]

theorem compare_lt_iff {x y : BigInt} (hx : Canonical x) (hy : Canonical y) :
    x.compare y = .lt ↔ x.toInt < y.toInt := by
  have hxneg := hx.negative_iff
  have hyneg := hy.negative_iff
  rw [compare]
  cases hxn : x.negative <;> cases hyn : y.negative <;> rw [hxn] at hxneg <;> rw [hyn] at hyneg
  case false.false =>
    rw [toInt_eq, toInt_eq, hxn, hyn, compareAbs_lt_iff]
    simp [signed]
  case true.true =>
    rw [toInt_eq, toInt_eq, hxn, hyn, compareAbs_lt_iff]
    simp [signed]
  case true.false =>
    have hlt : x.toInt < y.toInt := by simp at hxneg hyneg; omega
    exact iff_of_true rfl hlt
  case false.true =>
    have hge : ¬x.toInt < y.toInt := by simp at hxneg hyneg; omega
    have hgt : Ordering.gt ≠ .lt := by decide
    exact iff_of_false hgt hge

theorem Canonical.represents {x : BigInt} (h : Canonical x) : Represents x x.toInt := ⟨h, rfl⟩

/-! ## The operations of the ring -/

inductive RingOp
  | sum
  | difference
  | product
  deriving DecidableEq, Repr

namespace RingOp

def apply : RingOp → Int → Int → Int
  | sum, v, w => v + w
  | difference, v, w => v - w
  | product, v, w => v * w

section Forms

variable [Rendition]

def write [Supply] : RingOp → BigInt → BigInt → BigInt → Booked BigInt
  | sum, d, s, t => d.writeSum s t
  | difference, d, s, t => d.writeDifference s t
  | product, d, s, t => d.writeProduct s t

def assign [Supply] : RingOp → BigInt → BigInt → Booked BigInt
  | sum, d, t => d.addInPlace t
  | difference, d, t => d.subInPlace t
  | product, d, t => d.mulInPlace t

def fresh [Supply] : RingOp → BigInt → BigInt → Booked BigInt
  | sum, s, t => s.add t
  | difference, s, t => s.sub t
  | product, s, t => s.mul t

theorem assign_eq [Supply] (op : RingOp) (d t : BigInt) :
    (op.assign d t).val = (op.write d d.copy.val t).val := by
  cases op <;> rfl

theorem fresh_eq [Supply] (op : RingOp) (s t : BigInt) :
    op.fresh s t = op.write (empty s.alloc) s t := by
  cases op <;> rfl

variable {d s t : BigInt}

theorem write_represents (op : RingOp) (hd : Canonical d) (hs : Canonical s) (ht : Canonical t) :
    Represents (op.write d s t).val (op.apply s.toInt t.toInt) := by
  cases op with
  | sum => exact writeSum_represents hd hs ht
  | difference => exact writeDifference_represents hd hs ht
  | product => exact writeProduct_represents hd hs ht

theorem assign_represents (op : RingOp) (hd : Canonical d) (ht : Canonical t) :
    Represents (op.assign d t).val (op.apply d.toInt t.toInt) := by
  have hr := op.write_represents hd (copy_canonical hd) ht
  rwa [copy_toInt, ← assign_eq] at hr

theorem fresh_represents (op : RingOp) (hs : Canonical s) (ht : Canonical t) :
    Represents (op.fresh s t).val (op.apply s.toInt t.toInt) := by
  rw [fresh_eq]
  exact op.write_represents (empty_canonical _) hs ht

end Forms

end RingOp

/-! ## The ring -/

theorem neg_represents (x : BigInt) : Represents x.neg.val (-x.toInt) := by
  have hr := (write_written (empty_canonical x.alloc) x.units).represents (!x.negative)
  have hv : signed (!x.negative) (Units.val x.units) = -x.toInt := by
    rw [toInt_eq, magnitude]
    cases x.negative <;> simp [signed]
  rwa [hv] at hr

theorem zero_represents : Represents zero 0 := ⟨empty_canonical _, rfl⟩

/-- Every integer is the value of a canonical number. -/
theorem exists_represents (v : Int) : ∃ x, Represents x v := by
  have hr := (write_written (empty_canonical .secure) (Units.ofNat v.natAbs)).represents
    (decide (v < 0))
  have hv : signed (decide (v < 0)) (Units.val (Units.ofNat v.natAbs)) = v := by
    rw [Units.val_ofNat, signed]
    by_cases h : v < 0
    · rw [if_pos (decide_eq_true h), Int.ofNat_natAbs_of_nonpos h.le, Int.neg_neg]
    · rw [if_neg (by simpa using h), Int.natAbs_of_nonneg (by omega)]
  rw [hv] at hr
  exact ⟨_, hr⟩

section Ring

variable [Rendition]

theorem square_represents {s : BigInt} (hs : Canonical s) :
    Represents s.square.val (s.toInt * s.toInt) :=
  mul_represents hs hs

theorem squareInPlace_represents {s : BigInt} (hs : Canonical s) :
    Represents s.squareInPlace.val (s.toInt * s.toInt) := by
  have hc := copy_canonical hs
  have hr := writeProduct_represents hs hc hc
  rwa [copy_toInt] at hr

structure RingLaws : Prop where
  add_comm : ∀ s t, Canonical s → Canonical t → (s.add t).val.same (t.add s).val = true
  add_assoc : ∀ s t u, Canonical s → Canonical t → Canonical u →
    ((s.add t).val.add u).val.same (s.add (t.add u).val).val = true
  add_zero : ∀ s, Canonical s → (s.add zero).val.same s = true
  add_neg : ∀ s, Canonical s → (s.add s.neg.val).val.same zero = true
  sub_eq : ∀ s t, Canonical s → Canonical t → (s.sub t).val.same (s.add t.neg.val).val = true
  sub_self : ∀ s, Canonical s → (s.sub s).val.toInt = 0 ∧ (s.sub s).val.negative = false
  mul_comm : ∀ s t, Canonical s → Canonical t → (s.mul t).val.same (t.mul s).val = true
  mul_assoc : ∀ s t u, Canonical s → Canonical t → Canonical u →
    ((s.mul t).val.mul u).val.same (s.mul (t.mul u).val).val = true
  mul_one : ∀ s, Canonical s → (s.mul (ofLimb 1).val).val.same s = true
  mul_add : ∀ s t u, Canonical s → Canonical t → Canonical u →
    (s.mul (t.add u).val).val.same ((s.mul t).val.add (s.mul u).val).val = true

theorem Represents.add {x y : BigInt} {v w : Int} (hx : Represents x v) (hy : Represents y w) :
    Represents (x.add y).val (v + w) := by
  rw [← hx.toInt_eq, ← hy.toInt_eq]
  exact add_represents hx.canonical hy.canonical

theorem Represents.mul {x y : BigInt} {v w : Int} (hx : Represents x v) (hy : Represents y w) :
    Represents (x.mul y).val (v * w) := by
  rw [← hx.toInt_eq, ← hy.toInt_eq]
  exact mul_represents hx.canonical hy.canonical

theorem ring_laws : RingLaws where
  add_comm s t hs ht :=
    (add_represents hs ht).same_of_eq (add_represents ht hs) (Int.add_comm _ _)
  add_assoc s t u hs ht hu :=
    ((add_represents hs ht).add hu.represents).same_of_eq
      (hs.represents.add (add_represents ht hu)) (Int.add_assoc _ _ _)
  add_zero s hs :=
    (hs.represents.add zero_represents).same_of_eq hs.represents (Int.add_zero _)
  add_neg s hs :=
    (hs.represents.add (neg_represents s)).same_of_eq zero_represents (Int.add_right_neg _)
  sub_eq s t hs ht :=
    (sub_represents hs ht).same_of_eq (hs.represents.add (neg_represents t)) Int.sub_eq_add_neg
  sub_self s hs := by
    have hr := sub_represents hs hs
    rw [Int.sub_self] at hr
    have hneg := hr.canonical.negative_iff
    rw [hr.toInt_eq] at hneg
    exact ⟨hr.toInt_eq, Bool.eq_false_iff.mpr fun h => absurd (hneg.mp h) (by decide)⟩
  mul_comm s t hs ht :=
    (mul_represents hs ht).same_of_eq (mul_represents ht hs) (Int.mul_comm _ _)
  mul_assoc s t u hs ht hu :=
    ((mul_represents hs ht).mul hu.represents).same_of_eq
      (hs.represents.mul (mul_represents ht hu)) (Int.mul_assoc _ _ _)
  mul_one s hs :=
    (hs.represents.mul (ofLimb_represents 1)).same_of_eq hs.represents (Int.mul_one _)
  mul_add s t u hs ht hu :=
    (hs.represents.mul (add_represents ht hu)).same_of_eq
      ((mul_represents hs ht).add (mul_represents hs hu)) (Int.mul_add _ _ _)

/-- Every form of a sum, a difference or a product leaves the exact integer, the same sign and limbs
for every destination. With these operations the numbers are the ring of integers: they satisfy its
laws, equal numbers are those of one value, and every integer is a value. -/
theorem numbers_form_integers :
    (∀ (op : RingOp) (s t : BigInt), Canonical s → Canonical t →
      (∀ d, Canonical d → Represents (op.write d s t).val (op.apply s.toInt t.toInt)) ∧
      Represents (op.fresh s t).val (op.apply s.toInt t.toInt) ∧
      Represents (op.assign s t).val (op.apply s.toInt t.toInt) ∧
      ∀ d e, Canonical d → Canonical e →
        (op.write d s t).val.same (op.write e s t).val = true) ∧
    (∀ s, Canonical s → Represents s.square.val (s.toInt * s.toInt) ∧
      Represents s.squareInPlace.val (s.toInt * s.toInt)) ∧
    RingLaws ∧
    (∀ x y, Canonical x → Canonical y → (x.same y = true ↔ x.toInt = y.toInt)) ∧
    ∀ v : Int, ∃ x, Represents x v := by
  refine ⟨fun op s t hs ht => ⟨fun d hd => op.write_represents hd hs ht,
    op.fresh_represents hs ht, op.assign_represents hs ht, fun d e hd he => ?_⟩,
    fun s hs => ⟨square_represents hs, squareInPlace_represents hs⟩, ring_laws,
    fun x y hx hy => same_iff hx hy, exists_represents⟩
  exact (op.write_represents hd hs ht).same_of_eq (op.write_represents he hs ht) rfl

end Ring

/-- A carry out of the only limb, into a destination that holds a longer negative number. -/
theorem numbers_form_integers_carry :
    let d : BigInt := ⟨[7, 9, 0, 0], 2, true, .pool 1⟩
    let s : BigInt := ⟨[0xffffffffffffffff], 1, false, .secure⟩
    let t : BigInt := ⟨[1], 1, false, .secure⟩
    Canonical d ∧ Canonical s ∧ Canonical t ∧
      Represents (d.writeSum s t).val 0x10000000000000000 := by
  intro d s t
  have hd : Canonical d := ⟨by decide, rfl, by decide, by decide⟩
  have hs : Canonical s := ⟨by decide, rfl, by decide, by decide⟩
  have ht : Canonical t := ⟨by decide, rfl, by decide, by decide⟩
  exact ⟨hd, hs, ht, (numbers_form_integers.1 .sum s t hs ht).1 d hd⟩

end CryptoPrimitives.BigInt
