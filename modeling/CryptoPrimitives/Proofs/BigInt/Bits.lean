import CryptoPrimitives.Proofs.BigInt.Made
import CryptoPrimitives.Proofs.Units.Prefix

/-!
# Shifts and single bits

A shift moves the magnitude by a power of two and keeps the sign, so shifts compose and a shift to
the left is undone by one to the right. The bits of a number are those of its magnitude, and one of
them is set without touching any other.
-/

set_option autoImplicit false

namespace CryptoPrimitives

/-! ## Bits of limbs -/

namespace Units

/-- Bit `j` of the value stands in limb `j / 64`. -/
theorem testBit_val (us : Units) (j : Nat) :
    (val us).testBit j = (us.getD (j / 64) 0).toNat.testBit (j % 64) := by
  have hj : 64 * (j / 64) + j % 64 = j := Nat.div_add_mod j 64
  have hr : j % 64 < 64 := Nat.mod_lt _ (by decide)
  rw [limb_at, Nat.testBit_mod_two_pow, Nat.testBit_div_two_pow, decide_eq_true hr, Bool.true_and,
    Nat.add_comm, hj]

theorem testBit_or_one (u : Limb) {i : Nat} (hi : i < 64) (j : Nat) :
    (u ||| (1 <<< i.toUInt64)).toNat.testBit j = (u.toNat.testBit j || decide (i = j)) := by
  have hone : (1 : Limb).toNat % 2 ^ (64 - i) = 1 :=
    Nat.mod_eq_of_lt (Nat.one_lt_two_pow (by omega))
  rw [UInt64.toNat_or, Nat.testBit_or, toNat_shiftLeft 1 i hi, hone, Nat.mul_one,
    Nat.testBit_two_pow]

/-- A bit that is set in one limb is set in the value, where that limb stands. -/
theorem testBit_set (us : Units) (i j : Nat) (h : i / 64 < us.length) :
    (val (us.set (i / 64) (us.getD (i / 64) 0 ||| (1 <<< (i % 64).toUInt64)))).testBit j =
      ((val us).testBit j || decide (i = j)) := by
  rw [testBit_val, testBit_val]
  by_cases hlimb : i / 64 = j / 64
  · have hbits : decide (i % 64 = j % 64) = decide (i = j) := by
      rw [decide_eq_decide]
      omega
    rw [hlimb] at h ⊢
    rw [List.getD_eq_getElem?_getD, List.getElem?_set_self h, Option.getD_some,
      testBit_or_one _ (Nat.mod_lt _ (by decide)), hbits]
  · have hne : decide (i = j) = false := by
      rw [decide_eq_false_iff_not]
      rintro rfl
      exact hlimb rfl
    rw [List.getD_eq_getElem?_getD, List.getElem?_set_ne hlimb, ← List.getD_eq_getElem?_getD, hne,
      Bool.or_false]

end Units

namespace BigInt

/-! ## Shifts -/

variable {x : BigInt}

/-- A number has the sign of what it stands for, unless that is zero. -/
theorem Represents.parts {negative : Bool} {m : Nat} (h : Represents x (signed negative m)) :
    x.magnitude = m ∧ x.negative = (negative && m != 0) := by
  constructor
  · rw [← toInt_natAbs, h.toInt_eq, signed_natAbs]
  · rw [Bool.eq_iff_iff, h.canonical.negative_iff, h.toInt_eq, signed_neg_iff]
    simp

theorem shiftRight_represents (hx : Canonical x) (k : Nat) :
    Represents (x.shiftRight k).val (signed x.negative (x.magnitude / 2 ^ k)) := by
  have hpow : 2 ^ (64 * (k / 64)) * 2 ^ (k % 64) = 2 ^ k := by rw [← pow_add, Nat.div_add_mod]
  unfold shiftRight
  by_cases hall : x.size ≤ k / Limb.bits
  · have hlt : x.magnitude < 2 ^ k := by
      have hsmall := (hx.size_le_iff _).mp hall
      rw [← hpow]
      exact hsmall.trans_le (Nat.le_mul_of_pos_right _ (by positivity))
    rw [if_pos hall, Nat.div_eq_of_lt hlt, signed_zero]
    exact ⟨empty_canonical _, rfl⟩
  · have hlen : k / 64 ≤ x.units.length := by
      rw [hx.length_units]
      exact Nat.le_of_not_le hall
    have hr := (write_written (empty_canonical x.alloc)
      (Units.shiftRight (x.units.drop (k / 64)) (k % 64)).1).represents x.negative
    rw [Units.shiftRight_value _ _ (Nat.mod_lt _ (by decide)), Units.val_drop _ _ hlen,
      Nat.div_div_eq_div_mul, hpow] at hr
    rw [if_neg hall]
    exact hr

theorem Represents.shiftLeft {v : Int} (h : Represents x v) (k : Nat) :
    Represents (x.shiftLeft k).val (v * 2 ^ k) := by
  rw [← h.toInt_eq]
  exact shiftLeft_represents h.canonical k

/-- Nothing leaves at the top, so nothing is missing when the shift is undone. -/
theorem shiftRight_shiftLeft (hx : Canonical x) (k : Nat) :
    Represents ((x.shiftLeft k).val.shiftRight k).val x.toInt := by
  have hl := shiftLeft_represents hx k
  rw [toInt_eq, ← signed_scale] at hl
  obtain ⟨hm, hn⟩ := hl.parts
  have hr := shiftRight_represents hl.canonical k
  rw [hm, hn, Nat.mul_div_cancel _ (by positivity)] at hr
  by_cases h0 : x.magnitude = 0
  · rw [h0, signed_zero] at hr
    rwa [toInt_eq, h0, signed_zero]
  · have hne : (x.magnitude * 2 ^ k != 0) = true := by simp [h0]
    rwa [hne, Bool.and_true] at hr

/-! ## Bits -/

theorem bitAt_testBit (x : BigInt) (i : Nat) :
    (x.bitAt i).toNat = (x.magnitude.testBit i).toNat := by
  rw [bitAt_value, Nat.toNat_testBit]

/-- Exactly one bit is set; the sign stays. -/
theorem setBit_testBit (hx : Canonical x) (i j : Nat) :
    (x.setBit i).val.magnitude.testBit j = (x.magnitude.testBit j || decide (i = j)) := by
  obtain ⟨hr, hroom⟩ := reserve_canonical hx (i / 64 + 1)
  have hsame : Units.val (x.reserve (i / 64 + 1)).val.buffer = x.magnitude := by
    obtain ⟨k, hk, -⟩ := reserve_eq x (i / 64 + 1)
    rw [hk, Units.val_append, Units.val_zeros, Nat.mul_zero, Nat.add_zero, ← hx.magnitude_eq]
  rw [(setBit_canonical hx i).magnitude_eq, ← hsame]
  exact Units.testBit_set _ i j hroom

theorem setBit_magnitude (hx : Canonical x) (i : Nat) :
    (x.setBit i).val.magnitude = x.magnitude ||| 2 ^ i := by
  apply Nat.eq_of_testBit_eq
  intro j
  rw [setBit_testBit hx, Nat.testBit_or, Nat.testBit_two_pow]

theorem setBit_negative (x : BigInt) (i : Nat) : (x.setBit i).val.negative = x.negative := by
  obtain ⟨k, hk, -⟩ := reserve_eq x (i / 64 + 1)
  have hn := congrArg negative hk
  exact hn

theorem Represents.setBit {n : Nat} (h : Represents x (n : Int)) (i : Nat) :
    Represents (x.setBit i).val ((n ||| 2 ^ i : Nat) : Int) := by
  have hpos : Represents x (signed false n) := h
  have hn : x.negative = false := hpos.parts.2
  refine ⟨setBit_canonical h.canonical i, ?_⟩
  rw [BigInt.toInt_eq, setBit_negative, setBit_magnitude h.canonical, hn, h.magnitude_eq]
  rfl

/-! ## The laws -/

structure ShiftLaws (x : BigInt) : Prop where
  left : ∀ k, Represents (x.shiftLeft k).val (x.toInt * 2 ^ k)
  right : ∀ k, Canonical (x.shiftRight k).val ∧
    (x.shiftRight k).val.magnitude = x.magnitude / 2 ^ k ∧
    (x.shiftRight k).val.negative = (x.negative && x.magnitude / 2 ^ k != 0)
  undone : ∀ k, ((x.shiftLeft k).val.shiftRight k).val.same x = true
  composed : ∀ j k, ((x.shiftLeft j).val.shiftLeft k).val.same (x.shiftLeft (j + k)).val = true

theorem shift_laws (hx : Canonical x) : ShiftLaws x where
  left := shiftLeft_represents hx
  right k :=
    have hr := shiftRight_represents hx k
    ⟨hr.canonical, hr.parts⟩
  undone k := (shiftRight_shiftLeft hx k).same_of_eq hx.represents rfl
  composed j k :=
    ((shiftLeft_represents hx j).shiftLeft k).same_of_eq (shiftLeft_represents hx (j + k)) (by ring)

structure BitLaws (x : BigInt) : Prop where
  read : ∀ i, (x.bitAt i).toNat = (x.magnitude.testBit i).toNat
  set_canonical : ∀ i, Canonical (x.setBit i).val
  set_negative : ∀ i, (x.setBit i).val.negative = x.negative
  set_testBit : ∀ i j,
    (x.setBit i).val.magnitude.testBit j = (x.magnitude.testBit j || decide (i = j))

theorem bit_laws (hx : Canonical x) : BitLaws x where
  read := bitAt_testBit x
  set_canonical := setBit_canonical hx
  set_negative := setBit_negative x
  set_testBit := setBit_testBit hx

/-- Shifts multiply and divide by powers of two. So they do on the stated limbs of a longer list,
where the bits that leave are returned, and the bits of a number are those of its magnitude. -/
theorem shifts_multiply_and_divide :
    (∀ x, Canonical x → ShiftLaws x ∧ BitLaws x) ∧
    ∀ (n : Nat) (r : Units) (k : Nat), n ≤ r.length → k < 64 →
      (∃ limbs out, Units.Checked.shiftLeft n r k = .ok ⟨out, limbs ++ r.drop n⟩ ∧
        limbs.length = n ∧
        Units.val limbs + out.toNat * 2 ^ (64 * n) = Units.val (r.take n) * 2 ^ k) ∧
      ∃ limbs out, Units.Checked.shiftRight n r k = .ok ⟨out, limbs ++ r.drop n⟩ ∧
        limbs.length = n ∧
        (0 < k → Units.val limbs * 2 ^ k + out.toNat / 2 ^ (64 - k) = Units.val (r.take n)) ∧
        (k = 0 → out = 0 ∧ limbs = r.take n) := by
  refine ⟨fun x hx => ⟨shift_laws hx, bit_laws hx⟩, fun n r k hr hk => ⟨?left, ?right⟩⟩
  case left => exact Units.Checked.shiftLeft_writes hr hk
  case right => exact Units.Checked.shiftRight_writes hr hk

/-- A negative number that is shifted away, and a shift that leaves the last of three limbs. -/
theorem shifts_multiply_and_divide_away :
    let x : BigInt := ⟨[0x8000000000000001, 5, 0, 0], 2, true, .pool 1⟩
    Canonical x ∧ Represents (x.shiftLeft 67).val (-(0x58000000000000001 * 2 ^ 67)) ∧
      (x.shiftRight 67).val.negative = false ∧ (x.setBit 200).val.negative = true ∧
      ∃ limbs out, Units.Checked.shiftLeft 2 [1, 0xf000000000000000, 7] 4 =
          .ok ⟨out, limbs ++ [7]⟩ ∧
        Units.val limbs + out.toNat * 2 ^ 128 = 0xf0000000000000000000000000000001 * 2 ^ 4 := by
  intro x
  have hx : Canonical x := ⟨by decide, rfl, by decide, by decide⟩
  obtain ⟨hshift, hbit⟩ := shifts_multiply_and_divide.1 x hx
  obtain ⟨⟨limbs, out, hok, -, hval⟩, -⟩ :=
    shifts_multiply_and_divide.2 2 [1, 0xf000000000000000, 7] 4 (by decide) (by decide)
  have hgone : (x.negative && x.magnitude / 2 ^ 67 != 0) = false := by decide
  exact ⟨hx, hshift.left 67, (hshift.right 67).2.2.trans hgone, hbit.set_negative 200, limbs, out,
    hok, hval⟩

end BigInt

end CryptoPrimitives
