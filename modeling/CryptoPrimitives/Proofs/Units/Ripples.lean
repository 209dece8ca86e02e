import CryptoPrimitives.Proofs.Units.Prefix

/-!
# Sums and differences with nothing lost

The limbs that a ripple leaves and what goes out of its top stand together for the exact sum or
difference, also when a whole limb enters the first step. What goes out settles everything else: a
difference owes a unit exactly when the subtrahend is the larger, and a sum from which one operand
is subtracted again owes what it had carried.
-/

set_option autoImplicit false

namespace CryptoPrimitives.Units

structure Carried (n total : Nat) (limbs : Units) (carry : Limb) : Prop where
  length : limbs.length = n
  value : val limbs + carry.toNat * 2 ^ (64 * n) = total

structure Borrowed (n minuend subtrahend : Nat) (limbs : Units) (borrow : Limb) : Prop where
  length : limbs.length = n
  value : (val limbs : Int) - borrow.toNat * 2 ^ (64 * n) = minuend - subtrahend

/-! ## What goes out of the top -/

theorem bit_of_le_one {u : Limb} (h : u.toNat ≤ 1) : u = 0 ∨ u = 1 := by
  have h01 : u.toNat = 0 ∨ u.toNat = 1 := by omega
  exact h01.imp (fun h0 => UInt64.toNat_inj.mp h0) fun h1 => UInt64.toNat_inj.mp h1

theorem limb_lt_base {n : Nat} (v : Limb) (hn : 0 < n) : v.toNat < 2 ^ (64 * n) :=
  v.toNat_lt.trans_le (Nat.pow_le_pow_right (by decide) (by omega))

/-- Less than twice the base of all limbs carries a unit at most. -/
theorem Carried.bit {n total : Nat} {limbs : Units} {carry : Limb}
    (h : Carried n total limbs carry) (htotal : total < 2 * 2 ^ (64 * n)) :
    carry = 0 ∨ carry = 1 := by
  apply bit_of_le_one
  have hv := h.value
  by_contra hgt
  have hmul := Nat.mul_le_mul_right (2 ^ (64 * n)) (show 2 ≤ carry.toNat by omega)
  omega

/-- A subtrahend within the base of all limbs is borrowed for at most once, and only if it is the
larger. -/
theorem Borrowed.bit {n minuend subtrahend : Nat} {limbs : Units} {borrow : Limb}
    (h : Borrowed n minuend subtrahend limbs borrow) (hs : subtrahend ≤ 2 ^ (64 * n)) :
    (borrow = 0 ∨ borrow = 1) ∧ (borrow = 1 ↔ minuend < subtrahend) := by
  have hl := val_lt limbs
  rw [h.length] at hl
  have hv : val limbs + subtrahend = minuend + borrow.toNat * 2 ^ (64 * n) := by
    have hv := h.value
    push_cast [← Int.ofNat_inj]
    omega
  have hbit : borrow.toNat ≤ 1 := by
    by_contra hgt
    have hmul := Nat.mul_le_mul_right (2 ^ (64 * n)) (show 2 ≤ borrow.toNat by omega)
    omega
  refine ⟨bit_of_le_one hbit, ?_⟩
  rw [← UInt64.toNat_inj]
  change borrow.toNat = 1 ↔ _
  have h01 : borrow.toNat = 0 ∨ borrow.toNat = 1 := by omega
  rcases h01 with h0 | h1
  · rw [h0] at hv ⊢
    omega
  · rw [h1] at hv ⊢
    omega

/-! ## Ripples -/

section Ripples

variable [Rendition]

theorem addCarry_carried (s t : Units) (h : s.length = t.length) :
    Carried s.length (val s + val t) (addCarry s t 0).1 (addCarry s t 0).2 := by
  refine ⟨length_addCarry s t 0 h, ?_⟩
  rw [Nat.mul_comm, addCarry_value s t 0 h]
  rfl

theorem addLimb_carried (s : Units) (v : Limb) :
    Carried s.length (val s + v.toNat) (addLimb s v).1 (addLimb s v).2 := by
  refine ⟨length_addLimb s v, ?_⟩
  rw [Nat.mul_comm, addLimb_value s v]

theorem subBorrow_borrowed (s t : Units) (h : s.length = t.length) :
    Borrowed s.length (val s) (val t) (subBorrow s t 0).1 (subBorrow s t 0).2 := by
  refine ⟨length_subBorrow s t 0 h, ?_⟩
  have hv := (subBorrow_value s t 0 h (by decide)).1
  have h0 : (0 : Limb).toNat = 0 := rfl
  rw [h0, Nat.add_zero, Nat.mul_comm] at hv
  have hcast := congrArg (Nat.cast (R := Int)) hv
  push_cast at hcast
  omega

theorem subLimb_borrowed (s : Units) (v : Limb) :
    Borrowed s.length (val s) v.toNat (subLimb s v).1 (subLimb s v).2 := by
  refine ⟨length_subLimb s v, ?_⟩
  have hv := subLimb_value s v
  rw [Nat.mul_comm] at hv
  have hcast := congrArg (Nat.cast (R := Int)) hv
  push_cast at hcast
  omega

/-- A sum less one operand is the other, and owes what the sum has carried. -/
theorem subBorrow_addCarry (s t : Units) (h : s.length = t.length) :
    subBorrow (addCarry s t 0).1 t 0 = (s, (addCarry s t 0).2) := by
  have hlen := length_addCarry s t 0 h
  have hsum := (addCarry_carried s t h).value
  obtain ⟨hback, hvalue⟩ := subBorrow_borrowed (addCarry s t 0).1 t (hlen.trans h)
  rw [hlen] at hback hvalue
  generalize addCarry s t 0 = sum at *
  generalize subBorrow sum.1 t 0 = difference at *
  have hs := val_lt s
  have hd := val_lt difference.1
  rw [hback] at hd
  have hv : val difference.1 + sum.2.toNat * 2 ^ (64 * s.length) =
      val s + difference.2.toNat * 2 ^ (64 * s.length) := by
    have hcast := congrArg (Nat.cast (R := Int)) hsum
    push_cast at hcast
    push_cast [← Int.ofNat_inj]
    omega
  have hcarry : sum.2.toNat = difference.2.toNat := by
    have hdiv := congrArg (fun total => total / 2 ^ (64 * s.length)) hv
    rwa [Nat.add_mul_div_right _ _ (by positivity), Nat.add_mul_div_right _ _ (by positivity),
      Nat.div_eq_of_lt hd, Nat.div_eq_of_lt hs, Nat.zero_add, Nat.zero_add] at hdiv
  rw [hcarry, Nat.add_right_cancel_iff] at hv
  exact Prod.ext (val_injective _ _ hback hv) (UInt64.toNat_inj.mp hcarry.symm)

end Ripples

/-! ## Stated lengths -/

section Stated

variable [Rendition]

/-- A sum in any destination, the first operand among them, and what is left of it when the second
operand is subtracted again. -/
theorem add_writes {n : Nat} {s t : Units} (hs : n ≤ s.length) (ht : n ≤ t.length) :
    ∃ limbs carry, Carried n (val (s.take n) + val (t.take n)) limbs carry ∧
      (carry = 0 ∨ carry = 1) ∧ Checked.addOnto n s t = .ok ⟨carry, limbs ++ s.drop n⟩ ∧
      ∀ r : Units, n ≤ r.length → Checked.add n r s t = .ok ⟨carry, limbs ++ r.drop n⟩ ∧
        Checked.subFrom n (limbs ++ r.drop n) t = .ok ⟨carry, s.take n ++ r.drop n⟩ ∧
        ∀ d : Units, n ≤ d.length →
          Checked.sub n d (limbs ++ r.drop n) t = .ok ⟨carry, s.take n ++ d.drop n⟩ := by
  have hls : (s.take n).length = n := by simp [hs]
  have hlt : (t.take n).length = n := by simp [ht]
  have hcarried := addCarry_carried (s.take n) (t.take n) (hls.trans hlt.symm)
  have hback := subBorrow_addCarry (s.take n) (t.take n) (hls.trans hlt.symm)
  rw [hls] at hcarried
  have hsum := hcarried.length
  refine ⟨_, _, hcarried, hcarried.bit ?total, ?onto, fun r hr => ?apart⟩
  case total =>
    have hs' := val_lt (s.take n)
    have ht' := val_lt (t.take n)
    rw [hls] at hs'
    rw [hlt] at ht'
    omega
  case onto => rw [Checked.addOnto_eq_add hs ht, Checked.add_accepted hs hs ht]
  case apart =>
    have hadd := Checked.add_accepted hr hs ht
    generalize addCarry (s.take n) (t.take n) 0 = sum at *
    have hroom : n ≤ (sum.1 ++ r.drop n).length := by
      rw [List.length_append]
      omega
    have hfront : (sum.1 ++ r.drop n).take n = sum.1 := List.take_left' hsum
    have hrest : (sum.1 ++ r.drop n).drop n = r.drop n := List.drop_left' hsum
    refine ⟨hadd, ?_, fun d hd => ?_⟩
    · rw [Checked.subFrom_eq_sub hroom ht, Checked.sub_accepted hroom hroom ht, hfront, hrest,
        hback]
    · rw [Checked.sub_accepted hd hroom ht, hfront, hback]

theorem sub_writes {n : Nat} {s t : Units} (hs : n ≤ s.length) (ht : n ≤ t.length) :
    ∃ limbs borrow, Borrowed n (val (s.take n)) (val (t.take n)) limbs borrow ∧
      (borrow = 0 ∨ borrow = 1) ∧ (borrow = 1 ↔ val (s.take n) < val (t.take n)) ∧
      Checked.subFrom n s t = .ok ⟨borrow, limbs ++ s.drop n⟩ ∧
      ∀ r : Units, n ≤ r.length → Checked.sub n r s t = .ok ⟨borrow, limbs ++ r.drop n⟩ := by
  have hls : (s.take n).length = n := by simp [hs]
  have hlt : (t.take n).length = n := by simp [ht]
  have hborrowed := subBorrow_borrowed (s.take n) (t.take n) (hls.trans hlt.symm)
  have ht' := val_lt (t.take n)
  rw [hls] at hborrowed
  rw [hlt] at ht'
  obtain ⟨hbit, howed⟩ := hborrowed.bit ht'.le
  refine ⟨_, _, hborrowed, hbit, howed, ?_, fun r hr => Checked.sub_accepted hr hs ht⟩
  rw [Checked.subFrom_eq_sub hs ht, Checked.sub_accepted hs hs ht]

theorem addLimb_writes {n : Nat} {s : Units} (v : Limb) (hs : n ≤ s.length) :
    ∃ limbs carry, Carried n (val (s.take n) + v.toNat) limbs carry ∧
      (n = 0 → carry = v) ∧ (0 < n → carry = 0 ∨ carry = 1) ∧
      ∀ r : Units, n ≤ r.length → Checked.addLimb n r s v = .ok ⟨carry, limbs ++ r.drop n⟩ := by
  have hls : (s.take n).length = n := by simp [hs]
  have hcarried := addLimb_carried (s.take n) v
  have hs' := val_lt (s.take n)
  rw [hls] at hcarried hs'
  refine ⟨_, _, hcarried, ?_, fun hn => hcarried.bit ?_,
    fun r hr => Checked.addLimb_accepted hr hs v⟩
  · rintro rfl
    rfl
  · have hv := limb_lt_base v hn
    omega

theorem subLimb_writes {n : Nat} {s : Units} (v : Limb) (hs : n ≤ s.length) :
    ∃ limbs borrow, Borrowed n (val (s.take n)) v.toNat limbs borrow ∧
      (n = 0 → borrow = v) ∧
      (0 < n → (borrow = 0 ∨ borrow = 1) ∧ (borrow = 1 ↔ val (s.take n) < v.toNat)) ∧
      ∀ r : Units, n ≤ r.length → Checked.subLimb n r s v = .ok ⟨borrow, limbs ++ r.drop n⟩ := by
  have hls : (s.take n).length = n := by simp [hs]
  have hborrowed := subLimb_borrowed (s.take n) v
  rw [hls] at hborrowed
  refine ⟨_, _, hborrowed, ?_, fun hn => hborrowed.bit (limb_lt_base v hn).le,
    fun r hr => Checked.subLimb_accepted hr hs v⟩
  rintro rfl
  rfl

/-- Sums and differences of the stated limbs are exact with what goes out of the top, which is a
unit at most and, for a difference, says which operand is the larger. An operation in place leaves
what the other form does, and a sum less one operand is the other. A single limb is added and
subtracted by the same equations; with no limb to take it in, it goes out whole. -/
theorem sums_and_differences_exact :
    (∀ (n : Nat) (s t : Units), n ≤ s.length → n ≤ t.length →
      (∃ limbs carry, Carried n (val (s.take n) + val (t.take n)) limbs carry ∧
        (carry = 0 ∨ carry = 1) ∧ Checked.addOnto n s t = .ok ⟨carry, limbs ++ s.drop n⟩ ∧
        ∀ r : Units, n ≤ r.length → Checked.add n r s t = .ok ⟨carry, limbs ++ r.drop n⟩ ∧
          Checked.subFrom n (limbs ++ r.drop n) t = .ok ⟨carry, s.take n ++ r.drop n⟩ ∧
          ∀ d : Units, n ≤ d.length →
            Checked.sub n d (limbs ++ r.drop n) t = .ok ⟨carry, s.take n ++ d.drop n⟩) ∧
      ∃ limbs borrow, Borrowed n (val (s.take n)) (val (t.take n)) limbs borrow ∧
        (borrow = 0 ∨ borrow = 1) ∧ (borrow = 1 ↔ val (s.take n) < val (t.take n)) ∧
        Checked.subFrom n s t = .ok ⟨borrow, limbs ++ s.drop n⟩ ∧
        ∀ r : Units, n ≤ r.length → Checked.sub n r s t = .ok ⟨borrow, limbs ++ r.drop n⟩) ∧
    ∀ (n : Nat) (s : Units) (v : Limb), n ≤ s.length →
      (∃ limbs carry, Carried n (val (s.take n) + v.toNat) limbs carry ∧
        (n = 0 → carry = v) ∧ (0 < n → carry = 0 ∨ carry = 1) ∧
        ∀ r : Units, n ≤ r.length → Checked.addLimb n r s v = .ok ⟨carry, limbs ++ r.drop n⟩) ∧
      ∃ limbs borrow, Borrowed n (val (s.take n)) v.toNat limbs borrow ∧
        (n = 0 → borrow = v) ∧
        (0 < n → (borrow = 0 ∨ borrow = 1) ∧ (borrow = 1 ↔ val (s.take n) < v.toNat)) ∧
        ∀ r : Units, n ≤ r.length → Checked.subLimb n r s v = .ok ⟨borrow, limbs ++ r.drop n⟩ :=
  ⟨fun _ _ _ hs ht => ⟨add_writes hs ht, sub_writes hs ht⟩,
    fun _ _ v hs => ⟨addLimb_writes v hs, subLimb_writes v hs⟩⟩

end Stated

/-- A carry through a run of ones, a borrow through a run of zeros, and a limb that nothing takes
in. -/
theorem sums_and_differences_exact_runs :
    let ones : Units := [0xffffffffffffffff, 0xffffffffffffffff, 7]
    (∃ limbs carry, Carried 2 (val (ones.take 2) + val [1, 0]) limbs carry ∧
      Checked.add 2 [9, 9, 9] ones [1, 0] = .ok ⟨carry, limbs ++ [9]⟩ ∧
      Checked.subFrom 2 (limbs ++ [9]) [1, 0] =
        .ok ⟨carry, [0xffffffffffffffff, 0xffffffffffffffff, 9]⟩) ∧
      (∃ limbs borrow, Checked.subFrom 2 [0, 0, 3] ones = .ok ⟨borrow, limbs ++ [3]⟩ ∧
        borrow = 1) ∧
      ∃ limbs, Checked.subLimb 0 [9] [] 5 = .ok ⟨5, limbs ++ [9]⟩ := by
  intro ones
  obtain ⟨hpairs, hlimbs⟩ := sums_and_differences_exact
  obtain ⟨⟨sum, carry, hsum, -, -, hadd⟩, -⟩ := hpairs 2 ones [1, 0] (by decide) (by decide)
  obtain ⟨hok, hback, -⟩ := hadd [9, 9, 9] (by decide)
  obtain ⟨-, difference, borrow, -, -, howed, hsub, -⟩ :=
    hpairs 2 [0, 0, 3] ones (by decide) (by decide)
  obtain ⟨-, untouched, owed, -, howes, -, hnone⟩ := hlimbs 0 [] 5 (by decide)
  obtain rfl := howes rfl
  exact ⟨⟨sum, carry, hsum, hok, hback⟩, ⟨difference, borrow, hsub, howed.mpr (by decide)⟩,
    untouched, hnone [9] (by decide)⟩

end CryptoPrimitives.Units
