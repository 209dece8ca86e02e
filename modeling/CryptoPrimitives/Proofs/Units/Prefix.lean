import CryptoPrimitives.Proofs.Units.LongDivision
import CryptoPrimitives.Proofs.Units.Product
import CryptoPrimitives.Units.Checked

/-!
# Operations on a stated number of limbs

An operation whose preconditions hold is accepted. It replaces the stated limbs of its destination,
and the limbs past them stay behind the new ones.
-/

set_option autoImplicit false

namespace CryptoPrimitives.Units.Checked

theorem holds_ok {operand : String} {n : Nat} {us : Units} (h : n ≤ us.length) :
    holds operand n us = .ok () := by simp [holds, h]

theorem demand_ok {condition : Bool} {failure : Precondition} (h : condition = true) :
    demand condition failure = .ok () := by simp [demand, h]

theorem store_eq {limbs : Units} {n : Nat} (r : Units) (h : limbs.length = n) :
    store limbs r = limbs ++ r.drop n := by rw [store, h]

variable {n k : Nat} {r s t : Units}

/-! ## Measures -/

theorem significant_accepted (hs : n ≤ s.length) :
    significant n s = .ok (Units.significant (s.take n)) := by
  rw [significant, holds_ok hs]
  rfl

theorem bitLength_accepted (hs : n ≤ s.length) :
    bitLength n s = .ok (Units.bitLength (s.take n)) := by
  rw [bitLength, holds_ok hs]
  rfl

theorem isZero_accepted (hs : n ≤ s.length) : isZero n s = .ok (Units.isZero (s.take n)) := by
  rw [isZero, holds_ok hs]
  rfl

theorem compare_accepted (hs : n ≤ s.length) (ht : n ≤ t.length) :
    compare n s t = .ok (Units.compare (s.take n) (t.take n)) := by
  rw [compare, holds_ok hs, holds_ok ht]
  rfl

theorem compareUneven_accepted {ns nt : Nat} (hs : ns ≤ s.length) (ht : nt ≤ t.length) :
    compareUneven ns s nt t = .ok (Units.compareUneven (s.take ns) (t.take nt)) := by
  rw [compareUneven, holds_ok hs, holds_ok ht]
  rfl

/-! ## Moves -/

theorem set_accepted (hr : n ≤ r.length) (hs : n ≤ s.length) :
    set n r s = .ok (s.take n ++ r.drop n) := by
  have hl : (s.take n).length = n := by simp [hs]
  rw [set, holds_ok hr, holds_ok hs, ← store_eq r hl]
  rfl

theorem zero_accepted (hr : n ≤ r.length) : zero n r = .ok (zeros n ++ r.drop n) := by
  rw [zero, holds_ok hr, ← store_eq r (length_zeros n)]
  rfl

theorem setWithin_accepted {ns : Nat} (hn : ns ≤ n) (hr : n ≤ r.length) (hs : ns ≤ s.length) :
    setWithin n r ns s = .ok (s.take ns ++ zeros (n - ns) ++ r.drop n) := by
  have hl : (s.take ns).length = ns := by simp [hs]
  have hfront : (s.take ns ++ r.drop ns).take ns = s.take ns := List.take_left' hl
  have hpast : (s.take ns ++ r.drop ns).drop ns = r.drop ns := List.drop_left' hl
  have hclear : zero (n - ns) (r.drop ns) = .ok (zeros (n - ns) ++ r.drop n) := by
    rw [zero_accepted (by simpa using Nat.sub_le_sub_right hr ns), List.drop_drop,
      Nat.add_sub_cancel' hn]
  rw [setWithin, demand_ok (decide_eq_true hn), holds_ok hr, set_accepted (hn.trans hr) hs]
  change (zero (n - ns) ((s.take ns ++ r.drop ns).drop ns) >>= fun high =>
    .ok ((s.take ns ++ r.drop ns).take ns ++ high)) = _
  rw [hpast, hclear, hfront, List.append_assoc]
  rfl

theorem assignIf_accepted (hr : n ≤ r.length) (hs : n ≤ s.length) (choice : Bool) :
    assignIf n r s choice =
      .ok (Units.assignIf choice (r.take n) (s.take n) ++ r.drop n) := by
  have hl : (Units.assignIf choice (r.take n) (s.take n)).length = n := by
    simp [Units.assignIf, hr, hs]
  rw [assignIf, holds_ok hr, holds_ok hs, ← store_eq r hl]
  rfl

theorem swapIf_accepted {a b : Units} (ha : n ≤ a.length) (hb : n ≤ b.length) (choice : Bool) :
    swapIf n a b choice =
      .ok ((List.zipWith (Limb.swap choice) (a.take n) (b.take n)).map Prod.fst ++ a.drop n,
        (List.zipWith (Limb.swap choice) (a.take n) (b.take n)).map Prod.snd ++ b.drop n) := by
  have hl : (List.zipWith (Limb.swap choice) (a.take n) (b.take n)).length = n := by simp [ha, hb]
  rw [swapIf, holds_ok ha, holds_ok hb, ← store_eq a (by rwa [List.length_map]),
    ← store_eq b (by rwa [List.length_map])]
  rfl

/-! ## Shifts -/

theorem shiftLeft_accepted (hr : n ≤ r.length) (hk : k < Limb.bits) :
    shiftLeft n r k = .ok ⟨(Units.shiftLeft (r.take n) k).2,
      (Units.shiftLeft (r.take n) k).1 ++ r.drop n⟩ := by
  have hl : (Units.shiftLeft (r.take n) k).1.length = n := by simp [length_shiftLeft, hr]
  rw [shiftLeft, demand_ok (decide_eq_true hk), holds_ok hr, ← store_eq r hl]
  rfl

theorem shiftRight_accepted (hr : n ≤ r.length) (hk : k < Limb.bits) :
    shiftRight n r k = .ok ⟨(Units.shiftRight (r.take n) k).2,
      (Units.shiftRight (r.take n) k).1 ++ r.drop n⟩ := by
  have hl : (Units.shiftRight (r.take n) k).1.length = n := by simp [length_shiftRight, hr]
  rw [shiftRight, demand_ok (decide_eq_true hk), holds_ok hr, ← store_eq r hl]
  rfl

/-- What leaves at the top is the high part of the product. -/
theorem shiftLeft_writes (hr : n ≤ r.length) (hk : k < 64) :
    ∃ limbs out, shiftLeft n r k = .ok ⟨out, limbs ++ r.drop n⟩ ∧ limbs.length = n ∧
      val limbs + out.toNat * 2 ^ (64 * n) = val (r.take n) * 2 ^ k := by
  have hlen : (r.take n).length = n := by simp [hr]
  have hv := shiftLeft_value (r.take n) k hk
  refine ⟨_, _, shiftLeft_accepted hr hk, by rw [length_shiftLeft, hlen], ?_⟩
  rw [hlen] at hv
  rw [Nat.mul_comm, hv, Nat.mul_comm]

/-- What leaves at the bottom is the remainder, at the top of a limb; a shift by nothing does
nothing. -/
theorem shiftRight_writes (hr : n ≤ r.length) (hk : k < 64) :
    ∃ limbs out, shiftRight n r k = .ok ⟨out, limbs ++ r.drop n⟩ ∧ limbs.length = n ∧
      (0 < k → val limbs * 2 ^ k + out.toNat / 2 ^ (64 - k) = val (r.take n)) ∧
      (k = 0 → out = 0 ∧ limbs = r.take n) := by
  refine ⟨_, _, shiftRight_accepted hr hk, by simp [length_shiftRight, hr], fun h0 => ?_, ?_⟩
  · rw [Units.shiftRight, if_neg (by omega)]
    exact shiftRightFrom_split k (r.take n) h0 hk
  · rintro rfl
    exact ⟨rfl, rfl⟩

/-! ## Sums and differences -/

section Sums

variable [Rendition]

theorem add_accepted (hr : n ≤ r.length) (hs : n ≤ s.length) (ht : n ≤ t.length) :
    add n r s t = .ok ⟨(addCarry (s.take n) (t.take n) 0).2,
      (addCarry (s.take n) (t.take n) 0).1 ++ r.drop n⟩ := by
  have hl : (addCarry (s.take n) (t.take n) 0).1.length = n := by
    rw [length_addCarry _ _ _ (by simp [hs, ht])]
    simp [hs]
  rw [add, holds_ok hr, holds_ok hs, holds_ok ht, ← store_eq r hl]
  rfl

theorem sub_accepted (hr : n ≤ r.length) (hs : n ≤ s.length) (ht : n ≤ t.length) :
    sub n r s t = .ok ⟨(subBorrow (s.take n) (t.take n) 0).2,
      (subBorrow (s.take n) (t.take n) 0).1 ++ r.drop n⟩ := by
  have hl : (subBorrow (s.take n) (t.take n) 0).1.length = n := by
    rw [length_subBorrow _ _ _ (by simp [hs, ht])]
    simp [hs]
  rw [sub, holds_ok hr, holds_ok hs, holds_ok ht, ← store_eq r hl]
  rfl

/-- In place the destination is the first operand. -/
theorem addOnto_eq_add (hr : n ≤ r.length) (ht : n ≤ t.length) :
    addOnto n r t = add n r r t := by
  rw [addOnto, add, holds_ok hr, holds_ok hr, holds_ok ht]
  rfl

theorem subFrom_eq_sub (hr : n ≤ r.length) (ht : n ≤ t.length) :
    subFrom n r t = sub n r r t := by
  rw [subFrom, sub, holds_ok hr, holds_ok hr, holds_ok ht]
  rfl

theorem addLimb_accepted (hr : n ≤ r.length) (hs : n ≤ s.length) (v : Limb) :
    addLimb n r s v =
      .ok ⟨(Units.addLimb (s.take n) v).2, (Units.addLimb (s.take n) v).1 ++ r.drop n⟩ := by
  have hl : (Units.addLimb (s.take n) v).1.length = n := by simp [length_addLimb, hs]
  rw [addLimb, holds_ok hr, holds_ok hs, ← store_eq r hl]
  rfl

theorem subLimb_accepted (hr : n ≤ r.length) (hs : n ≤ s.length) (v : Limb) :
    subLimb n r s v =
      .ok ⟨(Units.subLimb (s.take n) v).2, (Units.subLimb (s.take n) v).1 ++ r.drop n⟩ := by
  have hl : (Units.subLimb (s.take n) v).1.length = n := by simp [length_subLimb, hs]
  rw [subLimb, holds_ok hr, holds_ok hs, ← store_eq r hl]
  rfl

end Sums

/-! ## Quotients -/

theorem divLimb_accepted {q : Units} {d : Limb} (hd : d ≠ 0) (hq : n ≤ q.length)
    (hs : n ≤ s.length) :
    divLimb n q s d =
      .ok ⟨(Units.divLimb (s.take n) d).2, (Units.divLimb (s.take n) d).1 ++ q.drop n⟩ := by
  have hl : (Units.divLimb (s.take n) d).1.length = n := by simp [length_divLimb, hs]
  rw [divLimb, demand_ok (bne_iff_ne.mpr hd), holds_ok hq, holds_ok hs, ← store_eq q hl]
  rfl

/-! ## Products -/

section Products

variable [Rendition]

theorem mulLimb_accepted (hr : n ≤ r.length) (hs : n ≤ s.length) (v : Limb) :
    mulLimb n r s v =
      .ok ⟨(mulCarry (s.take n) v 0).2, (mulCarry (s.take n) v 0).1 ++ r.drop n⟩ := by
  have hl : (mulCarry (s.take n) v 0).1.length = n := by simp [length_mulCarry, hs]
  rw [mulLimb, holds_ok hr, holds_ok hs, ← store_eq r hl]
  rfl

theorem addMulLimb_accepted (hr : n ≤ r.length) (hs : n ≤ s.length) (v : Limb) :
    addMulLimb n r s v = .ok ⟨(addMulCarry (r.take n) (s.take n) v 0).2,
      (addMulCarry (r.take n) (s.take n) v 0).1 ++ r.drop n⟩ := by
  have hl : (addMulCarry (r.take n) (s.take n) v 0).1.length = n := by
    rw [length_addMulCarry _ _ _ _ (by simp [hr, hs])]
    simp [hs]
  rw [addMulLimb, holds_ok hr, holds_ok hs, ← store_eq r hl]
  rfl

theorem mulLengths_accepted {ns nt : Nat} (hr : ns + nt ≤ r.length) (hs : ns ≤ s.length)
    (ht : nt ≤ t.length) :
    mulLengths r ns s nt t =
      .ok (Units.mul (s.take ns) (t.take nt) ++ r.drop (ns + nt)) := by
  have hl : (Units.mul (s.take ns) (t.take nt)).length = ns + nt := by simp [length_mul, hs, ht]
  rw [mulLengths, holds_ok hr, holds_ok hs, holds_ok ht, ← store_eq r hl]
  rfl

/-- The limb returned is the one above the product. -/
theorem mulLimb_writes (hr : n ≤ r.length) (hs : n ≤ s.length) (v : Limb) :
    ∃ limbs out, mulLimb n r s v = .ok ⟨out, limbs ++ r.drop n⟩ ∧ limbs.length = n ∧
      val limbs + out.toNat * 2 ^ (64 * n) = val (s.take n) * v.toNat := by
  have hlen : (s.take n).length = n := by simp [hs]
  have hv := mulCarry_value (s.take n) v 0
  refine ⟨_, _, mulLimb_accepted hr hs v, by rw [length_mulCarry, hlen], ?_⟩
  rw [hlen] at hv
  rw [Nat.mul_comm _ (2 ^ (64 * n)), hv]
  rfl

theorem addMulLimb_writes (hr : n ≤ r.length) (hs : n ≤ s.length) (v : Limb) :
    ∃ limbs out, addMulLimb n r s v = .ok ⟨out, limbs ++ r.drop n⟩ ∧ limbs.length = n ∧
      val limbs + out.toNat * 2 ^ (64 * n) = val (r.take n) + val (s.take n) * v.toNat := by
  have hlen : (s.take n).length = n := by simp [hs]
  have hsame : (r.take n).length = (s.take n).length := by simp [hr, hs]
  have hv := addMulCarry_value (r.take n) (s.take n) v 0 hsame
  refine ⟨_, _, addMulLimb_accepted hr hs v, by rw [length_addMulCarry _ _ _ _ hsame, hlen], ?_⟩
  rw [hlen] at hv
  rw [Nat.mul_comm _ (2 ^ (64 * n)), hv]
  rfl

end Products

end CryptoPrimitives.Units.Checked
