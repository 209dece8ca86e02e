import CryptoPrimitives.Proofs.Limb.Renditions
import CryptoPrimitives.Proofs.Units.Montgomery

/-!
# Rounds with their carries checked

A round that refuses as soon as a sum or a product leaves its width, and that shows the limb it
drops. It never refuses, and the limb is zero. Between rounds the accumulator stays below the first
operand and the modulus together, which leaves one bit for the limb on top.
-/

set_option autoImplicit false

namespace CryptoPrimitives.Units

variable [Rendition]

def addMulCarryWithin : Units → Units → Limb → Limb → Option (Units × Limb)
  | r :: rs, s :: ss, v, carry => do
    let (lo, hi) ← Limb.macWithin s v r carry
    let (rest, out) ← addMulCarryWithin rs ss v hi
    return (lo :: rest, out)
  | _, _, _, carry => return ([], carry)

def montgomeryRoundWithin (n : Units) (nPrime : Limb) (a : Units) (t : MontgomeryAcc) (b : Limb) :
    Option (Limb × MontgomeryAcc) := do
  let (sum, c) ← addMulCarryWithin t.limbs a b 0
  let (top, spill) ← Limb.adcWithin t.top c 0
  let q := sum.headD 0 * nPrime
  let (cleared, c) ← addMulCarryWithin sum n q 0
  let (next, c2) ← Limb.adcWithin top c 0
  let above ← Limb.sumWithin spill [c2]
  return (cleared.headD 0, ⟨cleared.tail ++ [next], above⟩)

structure MontgomeryAcc.Bounded (n a : Units) (t : MontgomeryAcc) : Prop where
  length_eq : t.limbs.length = n.length
  below : t.val < Units.val a + Units.val n
  top_le : t.top.toNat ≤ 1

theorem add_mul_carry_within (r s : Units) (v carry : Limb) :
    addMulCarryWithin r s v carry = some (addMulCarry r s v carry) := by
  induction r generalizing s carry with
  | nil => rfl
  | cons r rs ih =>
    cases s with
    | nil => rfl
    | cons s ss =>
      simp only [addMulCarryWithin, addMulCarry, Limb.mac_within, ih, Option.bind_eq_bind,
        Option.bind_some]
      rfl

variable {n a : Units} {nPrime : Limb}

theorem montgomery_round_within (hn : Clears n nPrime) (hne : n ≠ []) (ha : a.length = n.length)
    {t : MontgomeryAcc} (ht : t.limbs.length = n.length) (b : Limb) :
    montgomeryRoundWithin n nPrime a t b = some (0, montgomeryRound n nPrime a t b) := by
  have hsuml := length_addMulCarry t.limbs a b 0 (ht.trans ha.symm)
  rw [ha] at hsuml
  have hzero := lowest_cleared n (addMulCarry t.limbs a b 0).1 _ nPrime _ hn hne hsuml
    (length_addMulCarry _ n _ 0 hsuml) (addMulCarry_value _ n _ 0 hsuml)
  have habove : ∀ x y z : Limb,
      Limb.sumWithin (Limb.adc x y 0).2 [(Limb.adc (Limb.adc x y 0).1 z 0).2] =
        some ((Limb.adc x y 0).2 + (Limb.adc (Limb.adc x y 0).1 z 0).2) := by
    intro x y z
    have hspill := Limb.adc_carry_le x y
    have hcarry := Limb.adc_carry_le (Limb.adc x y 0).1 z
    apply Limb.sum_within_eq
    simp only [List.map_cons, List.map_nil, List.sum_cons, List.sum_nil]
    omega
  simp only [montgomeryRoundWithin, add_mul_carry_within, Limb.adc_within, habove,
    Option.bind_eq_bind, Option.bind_some, hzero]
  rfl

/-! ## Between rounds -/

omit [Rendition] in
theorem MontgomeryAcc.bounded (ha : a.length = n.length) {t : MontgomeryAcc}
    (ht : t.limbs.length = n.length) (hlt : t.val < Units.val a + Units.val n) :
    t.Bounded n a := by
  refine ⟨ht, hlt, ?_⟩
  have har := val_lt a
  have hnr := val_lt n
  rw [ha] at har
  rw [MontgomeryAcc.val, ht] at hlt
  by_contra htwo
  have hge : 2 ^ (64 * n.length) * 2 ≤ 2 ^ (64 * n.length) * t.top.toNat :=
    Nat.mul_le_mul_left _ (by omega)
  omega

theorem rounds_bounded (hn : Clears n nPrime) (hne : n ≠ []) (hpos : 0 < val n)
    (ha : a.length = n.length) (bs : Units) : (montgomeryRounds n nPrime a bs).Bounded n a := by
  obtain ⟨hl, hlt, -⟩ := rounds_value n a nPrime hn hne ha bs ⟨zeros n.length, 0⟩
    (length_zeros _) (by rw [acc_zero]; omega)
  exact MontgomeryAcc.bounded ha hl hlt

structure RoundKept (n a : Units) (nPrime : Limb) (before : Units) (b : Limb) : Prop where
  checked : montgomeryRoundWithin n nPrime a (montgomeryRounds n nPrime a before) b =
    some (0, montgomeryRounds n nPrime a (before ++ [b]))
  bounded : (montgomeryRounds n nPrime a (before ++ [b])).Bounded n a

theorem round_kept (hn : Clears n nPrime) (hne : n ≠ []) (hpos : 0 < val n)
    (ha : a.length = n.length) (before : Units) (b : Limb) : RoundKept n a nPrime before b := by
  refine ⟨?_, rounds_bounded hn hne hpos ha _⟩
  have hstart := rounds_bounded hn hne hpos ha before
  rw [montgomery_round_within hn hne ha hstart.length_eq]
  simp only [montgomeryRounds, List.foldl_append, List.foldl_cons, List.foldl_nil]

end CryptoPrimitives.Units
