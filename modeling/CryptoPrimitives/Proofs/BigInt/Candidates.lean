import CryptoPrimitives.BigInt.Random
import CryptoPrimitives.Proofs.BigInt.Bits
import CryptoPrimitives.Proofs.BigInt.Bytes
import CryptoPrimitives.Proofs.Bytes.Counting

/-!
# What random strings give

A string that is cut to some bits is a number of these bits, and every such number is given by
equally many strings. The ends of a number of an exact length are forced, which leaves out one of
its bits, or two, and no value of the others is given by more strings than any other.
-/

set_option autoImplicit false

namespace CryptoPrimitives

/-! ## Strings that are cut -/

theorem le_ceilDiv (bits : Nat) : bits ≤ 8 * ceilDiv bits 8 := by
  rw [ceilDiv]
  omega

theorem mask_toNat {excess : Nat} (h : excess < 8) :
    ((0xff : UInt8) >>> excess.toUInt8).toNat = 2 ^ (8 - excess) - 1 := by
  revert excess
  decide

theorem mod_above {base low : Nat} (h : low < base) (top k : Nat) :
    (top * base + low) % (base * k) = top % k * base + low := by
  rw [Nat.mod_mul, Nat.mul_comm top, Nat.mul_add_mod, Nat.mod_eq_of_lt h,
    Nat.mul_add_div (Nat.zero_lt_of_lt h), Nat.div_eq_of_lt h, Nat.add_zero, Nat.add_comm,
    Nat.mul_comm base]

namespace BigInt

open Bytes (value strings mem_strings)
open Finset (range)

/-- Only the lowest bits are left. -/
theorem clearExcess_value {bits : Nat} {bytes : Bytes} (h : bytes.length = ceilDiv bits 8) :
    value (clearExcess bits bytes) = value bytes % 2 ^ bits := by
  cases bytes with
  | nil =>
    rw [clearExcess, Bytes.value_nil, Nat.zero_mod]
  | cons b bytes =>
    rw [List.length_cons, ceilDiv] at h
    have hexcess : 8 * (bytes.length + 1) - bits < 8 := by omega
    -- the bits below the leading byte, and those of it that are kept
    have hwidth : bits = 8 * bytes.length + (8 - (8 * (bytes.length + 1) - bits)) := by omega
    have hpow : 2 ^ bits =
        256 ^ bytes.length * 2 ^ (8 - (8 * (bytes.length + 1) - bits)) := by
      conv_lhs => rw [hwidth]
      rw [Nat.pow_add, Nat.pow_mul]
    rw [clearExcess, Bytes.value_cons, Bytes.value_cons, UInt8.toNat_and, mask_toNat hexcess,
      Nat.and_two_pow_sub_one_eq_mod, hpow, mod_above (Bytes.value_lt bytes)]

/-! ## Candidates -/

def candidate (bits : Nat) (bytes : Bytes) : BigInt := (ofBytesBE (clearExcess bits bytes)).val

theorem candidate_canonical (bits : Nat) (bytes : Bytes) : Canonical (candidate bits bytes) :=
  (ofBytesBE_represents _).canonical

theorem candidate_nonneg (bits : Nat) (bytes : Bytes) : 0 ≤ (candidate bits bytes).toInt := by
  rw [candidate, (ofBytesBE_represents _).toInt_eq]
  exact Int.natCast_nonneg _

theorem candidate_represents {bits : Nat} {bytes : Bytes} (h : bytes.length = ceilDiv bits 8) :
    Represents (candidate bits bytes) (value bytes % 2 ^ bits : Nat) := by
  rw [← clearExcess_value h]
  exact ofBytesBE_represents _

/-- Of the strings for some bits, so many give a number of some kind: every number of these bits is
given by equally many. -/
theorem card_candidates (bits : Nat) (p : Int → Prop) [DecidablePred p] :
    ((strings (ceilDiv bits 8)).filter fun bytes => p (candidate bits bytes).toInt).card =
      2 ^ (8 * ceilDiv bits 8 - bits) * ((range (2 ^ bits)).filter fun v : Nat => p v).card := by
  rw [← Bytes.card_strings_mod (le_ceilDiv bits) fun v : Nat => p v]
  congr 1
  refine Finset.filter_congr fun bytes hbytes => ?_
  rw [(candidate_represents (mem_strings.mp hbytes)).toInt_eq]

theorem card_candidate_eq {bits v : Nat} (h : v < 2 ^ bits) :
    ((strings (ceilDiv bits 8)).filter fun bytes => (candidate bits bytes).toInt = v).card =
      2 ^ (8 * ceilDiv bits 8 - bits) := by
  have hone : ((range (2 ^ bits)).filter fun u : Nat => (u : Int) = v) = {v} := by
    ext u
    rw [Finset.mem_filter, Finset.mem_range, Finset.mem_singleton]
    omega
  rw [card_candidates bits fun z => z = v, hone, Finset.card_singleton, Nat.mul_one]

theorem card_candidate_between {bits low upper : Nat} (h : upper ≤ 2 ^ bits) :
    ((strings (ceilDiv bits 8)).filter fun bytes =>
        (low : Int) ≤ (candidate bits bytes).toInt ∧ (candidate bits bytes).toInt < upper).card =
      2 ^ (8 * ceilDiv bits 8 - bits) * (upper - low) := by
  have hico : ((range (2 ^ bits)).filter fun u : Nat => (low : Int) ≤ u ∧ (u : Int) < upper) =
      Finset.Ico low upper := by
    ext u
    rw [Finset.mem_filter, Finset.mem_range, Finset.mem_Ico]
    omega
  rw [card_candidates bits fun z => (low : Int) ≤ z ∧ z < upper, hico, Nat.card_Ico]

/-! ## Forced ends -/

theorem or_top {k u : Nat} (h : u < 2 ^ (k + 1)) : u ||| 2 ^ k = 2 ^ k + u % 2 ^ k := by
  have hjoin := Nat.two_pow_add_eq_or_of_lt (Nat.mod_lt u (Nat.two_pow_pos k))
  have hu := Nat.div_add_mod u (2 ^ k)
  have hone := hjoin 1
  rw [Nat.mul_one] at hone
  rw [hone]
  by_cases hlow : u < 2 ^ k
  · rw [Nat.mod_eq_of_lt hlow, Nat.or_comm]
  · have hq : u / 2 ^ k = 1 := by
      rw [Nat.div_eq_iff (Nat.two_pow_pos k)]
      omega
    rw [hq, Nat.mul_one, hone] at hu
    conv_lhs => rw [← hu]
    rw [Nat.or_assoc, Nat.or_comm _ (2 ^ k), ← Nat.or_assoc, Nat.or_self]

theorem or_bottom (u : Nat) : u ||| 1 = 2 * (u / 2) + 1 := by
  have hrest : u % 2 ||| 1 = 1 := by
    rcases Nat.mod_two_eq_zero_or_one u with h | h <;> rw [h] <;> rfl
  have hjoin := Nat.two_pow_add_eq_or_of_lt (i := 1) (b := u % 2) (Nat.mod_lt u (by decide)) (u / 2)
  have hset := Nat.two_pow_add_eq_or_of_lt (i := 1) (b := 1) (by decide) (u / 2)
  rw [Nat.pow_one] at hjoin hset
  rw [Nat.div_add_mod] at hjoin
  rw [hset]
  conv_lhs => rw [hjoin]
  rw [Nat.or_assoc, hrest]

def forced (bits : Nat) (odd : Bool) (v : Nat) : Nat :=
  let top := 2 ^ (bits - 1) + v % 2 ^ (bits - 1)
  if odd then 2 * (top / 2) + 1 else top

theorem withEnds_represents {bits : Nat} (odd : Bool) {bytes : Bytes} (hbits : 1 ≤ bits)
    (h : bytes.length = ceilDiv bits 8) :
    Represents (withEnds bits odd (clearExcess bits bytes))
      (forced bits odd (value bytes) : Nat) := by
  have hmod : value bytes % 2 ^ bits % 2 ^ (bits - 1) = value bytes % 2 ^ (bits - 1) :=
    Nat.mod_mod_of_dvd _ (Nat.pow_dvd_pow 2 (Nat.sub_le bits 1))
  have hlt : value bytes % 2 ^ bits < 2 ^ (bits - 1 + 1) := by
    rw [Nat.sub_add_cancel hbits]
    exact Nat.mod_lt _ (Nat.two_pow_pos bits)
  have htop := (candidate_represents h).setBit (bits - 1)
  rw [or_top hlt, hmod] at htop
  unfold withEnds forced
  cases odd with
  | false => exact htop
  | true =>
    have hboth := htop.setBit 0
    rw [Nat.pow_zero, or_bottom] at hboth
    exact hboth

theorem size_eq_iff (n k : Nat) : n.size = k + 1 ↔ 2 ^ k ≤ n ∧ n < 2 ^ (k + 1) := by
  rw [← Nat.lt_size, ← Nat.size_le]
  omega

theorem forced_size {bits : Nat} (odd : Bool) (v : Nat) (hbits : 1 ≤ bits) :
    (forced bits odd v).size = bits := by
  obtain ⟨k, rfl⟩ := Nat.exists_eq_add_of_le' hbits
  rw [size_eq_iff, forced, Nat.add_sub_cancel, Nat.pow_succ]
  have hlow : v % 2 ^ k < 2 ^ k := Nat.mod_lt _ (Nat.two_pow_pos k)
  cases odd with
  | false => simp only [Bool.false_eq_true, if_false]; omega
  | true =>
    simp only [if_true]
    cases k with
    | zero => omega
    | succ k => rw [Nat.pow_succ] at *; omega

theorem forced_odd (bits v : Nat) : forced bits true v % 2 = 1 := Nat.mul_add_mod 2 _ 1

theorem card_forced {bits : Nat} (odd : Bool) {v : Nat} (hbits : 1 ≤ bits) (hsize : v.size = bits)
    (hodd : odd = true → v % 2 = 1) :
    ((range (2 ^ (bits - 1))).filter fun u => forced bits odd u = v).card =
      if odd = true ∧ 1 < bits then 2 else 1 := by
  obtain ⟨k, rfl⟩ := Nat.exists_eq_add_of_le' hbits
  rw [size_eq_iff, Nat.pow_succ] at hsize
  rw [Nat.add_sub_cancel]
  have hforced : ∀ u ∈ range (2 ^ k), forced (k + 1) odd u =
      if odd then 2 * ((2 ^ k + u) / 2) + 1 else 2 ^ k + u := by
    intro u hu
    rw [forced, Nat.add_sub_cancel, Nat.mod_eq_of_lt (Finset.mem_range.mp hu)]
  rw [Finset.filter_congr fun u hu => by rw [hforced u hu]]
  cases odd with
  | false =>
    have hone : ((range (2 ^ k)).filter fun u => 2 ^ k + u = v) = {v - 2 ^ k} := by
      ext u
      rw [Finset.mem_filter, Finset.mem_range, Finset.mem_singleton]
      omega
    simp only [Bool.false_eq_true, if_false, false_and]
    rw [hone, Finset.card_singleton]
  | true =>
    have hv := hodd rfl
    simp only [if_true, true_and]
    cases k with
    | zero =>
      -- top and bottom are one bit
      have hone : ((range (2 ^ 0)).filter fun u => 2 * ((2 ^ 0 + u) / 2) + 1 = v) = {0} := by
        ext u
        rw [Finset.mem_filter, Finset.mem_range, Finset.mem_singleton]
        omega
      rw [hone, Finset.card_singleton, if_neg (by decide)]
    | succ k =>
      rw [Nat.pow_succ] at hsize
      have htwo : ((range (2 ^ k * 2)).filter fun u => 2 * ((2 ^ k * 2 + u) / 2) + 1 = v) =
          {v - 2 ^ k * 2 - 1, v - 2 ^ k * 2} := by
        ext u
        rw [Finset.mem_filter, Finset.mem_range, Finset.mem_insert, Finset.mem_singleton]
        omega
      rw [Nat.pow_succ, htwo, Finset.card_pair (by omega), if_pos (by omega)]

/-- Every number of the length, and every odd one if it has to be odd, is given by equally many
strings. -/
theorem card_withEnds {bits : Nat} (odd : Bool) {v : Nat} (hbits : 1 ≤ bits) (hsize : v.size = bits)
    (hodd : odd = true → v % 2 = 1) :
    ((strings (ceilDiv bits 8)).filter fun bytes =>
        (withEnds bits odd (clearExcess bits bytes)).toInt = v).card =
      2 ^ (8 * ceilDiv bits 8 - (bits - 1)) * if odd = true ∧ 1 < bits then 2 else 1 := by
  have hroom : bits - 1 ≤ 8 * ceilDiv bits 8 := (Nat.sub_le bits 1).trans (le_ceilDiv bits)
  rw [← card_forced odd hbits hsize hodd,
    ← Bytes.card_strings_mod hroom fun u => forced bits odd u = v]
  congr 1
  refine Finset.filter_congr fun bytes hbytes => ?_
  have hforced :
      forced bits odd (value bytes % 2 ^ (bits - 1)) = forced bits odd (value bytes) := by
    rw [forced, forced, Nat.mod_mod]
  rw [(withEnds_represents odd hbits (mem_strings.mp hbytes)).toInt_eq, hforced, Nat.cast_inj]

end BigInt

end CryptoPrimitives
