import Mathlib.Algebra.BigOperators.Intervals
import Mathlib.Algebra.Group.Action.Defs
import CryptoPrimitives.Proofs.Bytes.Value

/-!
# Counting byte strings

The strings of one length are the numerals of that width, one for each number below a power of 256.
So a sum over the strings is a sum over numbers, and in a sum over what their lowest bits hold every
value of these bits comes equally often.
-/

set_option autoImplicit false

namespace CryptoPrimitives.Bytes

open CtrStandard (numeral value_numeral length_numeral)
open Finset (range)

def strings (n : Nat) : Finset Bytes := (range (256 ^ n)).image (numeral n)

theorem mem_strings {n : Nat} {bytes : Bytes} : bytes ∈ strings n ↔ bytes.length = n := by
  rw [strings, Finset.mem_image]
  constructor
  · rintro ⟨v, -, rfl⟩
    exact length_numeral n v
  · rintro rfl
    exact ⟨value bytes, Finset.mem_range.mpr (value_lt bytes), numeral_value bytes⟩

theorem strings_nonempty (n : Nat) : (strings n).Nonempty :=
  ⟨zeros n, mem_strings.mpr (length_zeros n)⟩

variable {M : Type} [AddCommMonoid M]

theorem sum_strings (n : Nat) (f : Nat → M) :
    ∑ bytes ∈ strings n, f (value bytes) = ∑ v ∈ range (256 ^ n), f v := by
  have hvalue : ∀ v ∈ range (256 ^ n), value (numeral n v) = v := by
    intro v hv
    rw [value_numeral, Nat.mod_eq_of_lt (Finset.mem_range.mp hv)]
  have hinj : Set.InjOn (numeral n) (range (256 ^ n)) := by
    intro v hv w hw h
    rw [← hvalue v hv, ← hvalue w hw, h]
  rw [strings, Finset.sum_image hinj]
  exact Finset.sum_congr rfl fun v hv => congrArg f (hvalue v hv)

theorem card_strings (n : Nat) : (strings n).card = 256 ^ n := by
  have h := sum_strings n fun _ => 1
  rwa [Finset.sum_const, Finset.sum_const, smul_eq_mul, smul_eq_mul, Nat.mul_one, Nat.mul_one,
    Finset.card_range] at h

/-- Over whole periods every remainder comes equally often. -/
theorem sum_mod (m k : Nat) (f : Nat → M) :
    ∑ v ∈ range (m * k), f (v % m) = k • ∑ u ∈ range m, f u := by
  induction k with
  | zero => rw [Nat.mul_zero, zero_nsmul, Finset.range_zero, Finset.sum_empty]
  | succ k ih =>
    have hlast : ∑ u ∈ range m, f ((m * k + u) % m) = ∑ u ∈ range m, f u := by
      refine Finset.sum_congr rfl fun u hu => ?_
      rw [Nat.mul_add_mod, Nat.mod_eq_of_lt (Finset.mem_range.mp hu)]
    rw [Nat.mul_succ, Finset.sum_range_add, ih, hlast, succ_nsmul]

theorem strings_split {n bits : Nat} (h : bits ≤ 8 * n) :
    256 ^ n = 2 ^ bits * 2 ^ (8 * n - bits) := by
  rw [← Nat.pow_add, Nat.add_sub_cancel' h, Nat.pow_mul]

theorem sum_strings_mod {n bits : Nat} (h : bits ≤ 8 * n) (f : Nat → M) :
    ∑ bytes ∈ strings n, f (value bytes % 2 ^ bits) =
      2 ^ (8 * n - bits) • ∑ u ∈ range (2 ^ bits), f u := by
  rw [sum_strings n fun v => f (v % 2 ^ bits), strings_split h, sum_mod]

/-- So many strings have lowest bits of some kind, each value of these bits being that of equally
many. -/
theorem card_strings_mod {n bits : Nat} (h : bits ≤ 8 * n) (p : Nat → Prop) [DecidablePred p] :
    ((strings n).filter fun bytes => p (value bytes % 2 ^ bits)).card =
      2 ^ (8 * n - bits) * ((range (2 ^ bits)).filter p).card := by
  have hsum := sum_strings_mod h fun u => if p u then 1 else 0
  rwa [← Finset.card_filter, ← Finset.card_filter, smul_eq_mul] at hsum

end CryptoPrimitives.Bytes
