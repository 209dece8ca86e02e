import CryptoPrimitives.Proofs.BigInt.Canonical
import CryptoPrimitives.Proofs.Radix.Digits
import CryptoPrimitives.Proofs.Units.Prefix

/-!
# Printing numerals

The digits of a chunk, followed by those of the quotient that is still to be printed, are the digits
of the whole number: an inner chunk has all its zeros, the last one none above its highest digit. A
printer that divides from one buffer into another and swaps them reads only the limbs that the last
division has written, so it prints the same digits whatever the buffers held before.
-/

set_option autoImplicit false

namespace CryptoPrimitives.Radix

variable {radix : Nat}

def digitText (radix n : Nat) : List Char := (Nat.digits radix n).map digitChar

theorem digitText_zero : digitText radix 0 = [] := by
  rw [digitText, Nat.digits_zero, List.map_nil]

theorem digitText_of_pos (h2 : 2 ≤ radix) {n : Nat} (hn : n ≠ 0) :
    digitText radix n = digitChar (n % radix) :: digitText radix (n / radix) := by
  rw [digitText, Nat.digits_eq_cons_digits_div (by omega) hn, List.map_cons]
  rfl

/-! ## One chunk -/

section Chunk

variable {k : Nat} {rem : Limb}

theorem toNat_mod_radix (hr : radix ≤ 36) : (rem % radix.toUInt64).toNat = rem.toNat % radix := by
  rw [UInt64.toNat_mod, toUInt64_toNat (radix_fits hr)]

theorem toNat_div_radix (hr : radix ≤ 36) : (rem / radix.toUInt64).toNat = rem.toNat / radix := by
  rw [UInt64.toNat_div, toUInt64_toNat (radix_fits hr)]

/-- A chunk below the digits of a quotient `m`; it is the last one when the quotient is zero. -/
theorem chunkDigits_append (h2 : 2 ≤ radix) (hr : radix ≤ 36) {m : Nat} {last : Bool}
    (hlast : last = true ↔ m = 0) (hrem : rem.toNat < radix ^ k)
    (hne : rem.toNat + radix ^ k * m ≠ 0) :
    chunkDigits radix.toUInt64 last k rem ++ digitText radix m =
      digitText radix (rem.toNat + radix ^ k * m) := by
  induction k generalizing rem with
  | zero =>
    rw [pow_zero] at hrem ⊢
    rw [chunkDigits, List.nil_append, Nat.one_mul, Nat.lt_one_iff.mp hrem, Nat.zero_add]
  | succ k ih =>
    have hpow : radix ^ (k + 1) * m = radix * (radix ^ k * m) := by rw [pow_succ]; ring
    have hmod : (rem.toNat + radix ^ (k + 1) * m) % radix = rem.toNat % radix := by
      rw [hpow, Nat.add_mul_mod_self_left]
    have hdiv : (rem.toNat + radix ^ (k + 1) * m) / radix =
        (rem / radix.toUInt64).toNat + radix ^ k * m := by
      rw [hpow, Nat.add_mul_div_left _ _ (by omega), toNat_div_radix hr]
    have hlow : (rem / radix.toUInt64).toNat < radix ^ k := by
      rw [toNat_div_radix hr]
      exact Nat.div_lt_of_lt_mul (by rwa [pow_succ, Nat.mul_comm] at hrem)
    rw [digitText_of_pos h2 hne, hmod, hdiv, chunkDigits, ← toNat_mod_radix hr]
    by_cases hrest : (rem / radix.toUInt64).toNat + radix ^ k * m = 0
    · -- Nothing is left above this digit: the quotient is zero, and so is the rest of the chunk.
      have hm : m = 0 := by
        have hprod : radix ^ k * m = 0 := by omega
        exact (Nat.mul_eq_zero.mp hprod).resolve_left (by positivity)
      have hzero : rem / radix.toUInt64 = 0 :=
        UInt64.toNat_inj.mp (Nat.eq_zero_of_add_eq_zero_right hrest)
      simp [hlast.mpr hm, hzero, hm, digitText_zero]
    · have hgo : (last && rem / radix.toUInt64 == 0) = false := by
        rw [Bool.and_eq_false_iff, ← Bool.not_eq_true, hlast, beq_eq_false_iff_ne]
        by_contra hstop
        obtain ⟨hm, hzero⟩ := not_or.mp hstop
        rw [not_not] at hm hzero
        rw [hm, hzero] at hrest
        exact hrest rfl
      rw [hgo]
      simp only [Bool.false_eq_true, if_false, List.cons_append]
      rw [ih hlow hrest]

end Chunk

/-! ## All chunks -/

/-- The power that divides a magnitude into chunks is at least two. -/
theorem two_le_chunkBase (h2 : 2 ≤ radix) (hr : radix ≤ 36) :
    2 ≤ (chunkBase radix).2.toNat := by
  obtain ⟨hpow, hone⟩ := chunkBase_power hr
  calc 2 ≤ radix ^ 1 := by rwa [pow_one]
    _ ≤ radix ^ chunkLength radix := Nat.pow_le_pow_right (by omega) hone
    _ = (chunkBase radix).2.toNat := hpow.symm

theorem chunkBase_ne_zero (h2 : 2 ≤ radix) (hr : radix ≤ 36) : (chunkBase radix).2 ≠ 0 := by
  intro h0
  have h := two_le_chunkBase h2 hr
  rw [h0] at h
  exact absurd h (by decide)

def chunkQuotient (radix : Nat) (us : Units) : Units := (Units.divLimb us (chunkBase radix).2).1

def chunkRemainder (radix : Nat) (us : Units) : Limb := (Units.divLimb us (chunkBase radix).2).2

theorem length_chunkQuotient (us : Units) : (chunkQuotient radix us).length = us.length :=
  Units.length_divLimb us _

/-- A round takes one chunk off the number and leaves at least one bit less to print. -/
theorem chunk_value (h2 : 2 ≤ radix) (hr : radix ≤ 36) (us : Units) :
    Units.val us = (chunkRemainder radix us).toNat +
        radix ^ chunkLength radix * Units.val (chunkQuotient radix us) ∧
      (chunkRemainder radix us).toNat < radix ^ chunkLength radix ∧
      2 * Units.val (chunkQuotient radix us) ≤ Units.val us := by
  obtain ⟨hdiv, hlt⟩ := Units.divLimb_value us _ (chunkBase_ne_zero h2 hr)
  have htwo := Nat.mul_le_mul_right (Units.val (chunkQuotient radix us)) (two_le_chunkBase h2 hr)
  rw [Nat.mul_comm] at hdiv
  rw [← (chunkBase_power hr).1]
  unfold chunkQuotient chunkRemainder at *
  exact ⟨by omega, hlt, by omega⟩

/-- The chunk of one round in front of what the quotient is printed as. -/
theorem round_digits (h2 : 2 ≤ radix) (hr : radix ≤ 36) {us : Units} (h0 : Units.val us ≠ 0)
    {last : Bool} (hlast : last = true ↔ Units.val (chunkQuotient radix us) = 0) :
    chunkDigits radix.toUInt64 last (chunkLength radix) (chunkRemainder radix us) ++
        digitText radix (Units.val (chunkQuotient radix us)) =
      digitText radix (Units.val us) := by
  obtain ⟨hval, hrem, -⟩ := chunk_value h2 hr us
  rw [hval] at h0 ⊢
  exact chunkDigits_append h2 hr hlast hrem h0

theorem unitsDigits_succ (rounds : Nat) {us : Units} (h : us.isEmpty = false) :
    unitsDigits radix (rounds + 1) us =
      chunkDigits radix.toUInt64 (Units.trimmed (chunkQuotient radix us)).isEmpty
          (chunkLength radix) (chunkRemainder radix us) ++
        unitsDigits radix rounds (Units.trimmed (chunkQuotient radix us)) := by
  rw [unitsDigits, h]
  rfl

/-- A limb list without a leading zero limb is printed as its value. -/
theorem unitsDigits_eq (h2 : 2 ≤ radix) (hr : radix ≤ 36) (rounds : Nat) (us : Units)
    (hlt : Units.val us < 2 ^ rounds) :
    unitsDigits radix rounds (Units.trimmed us) = digitText radix (Units.val us) := by
  induction rounds generalizing us with
  | zero =>
    rw [pow_zero] at hlt
    rw [unitsDigits, Nat.lt_one_iff.mp hlt, digitText_zero]
  | succ rounds ih =>
    by_cases h0 : Units.val us = 0
    · rw [unitsDigits, if_pos ((Units.trimmed_isEmpty us).mpr h0), h0, digitText_zero]
    · obtain ⟨-, -, hhalf⟩ := chunk_value h2 hr (Units.trimmed us)
      rw [Units.val_trimmed] at hhalf
      rw [pow_succ] at hlt
      have hne : (Units.trimmed us).isEmpty = false :=
        Bool.eq_false_iff.mpr (mt (Units.trimmed_isEmpty us).mp h0)
      rw [← Units.val_trimmed] at h0
      rw [unitsDigits_succ rounds hne, ih _ (by omega),
        round_digits h2 hr h0 (Units.trimmed_isEmpty _), Units.val_trimmed]

/-! ## Two buffers -/

inductive Peels (radix : Nat) : Nat → Units → Units → List Char → Prop
  | done (cur next : Units) : Peels radix 0 cur next []
  | round {n m : Nat} {cur next : Units} {divided : Returned} {digits : List Char} : n ≠ 0 →
      Units.Checked.divLimb n next cur (chunkBase radix).2 = .ok divided →
      Units.Checked.significant n divided.units = .ok m →
      Peels radix m divided.units cur digits →
      Peels radix n cur next
        (chunkDigits radix.toUInt64 (m == 0) (chunkLength radix) divided.limb ++ digits)

theorem Peels.unique {n : Nat} {cur next : Units} {digits digits' : List Char}
    (h : Peels radix n cur next digits) (h' : Peels radix n cur next digits') :
    digits = digits' := by
  induction h generalizing digits' with
  | done =>
    cases h' with
    | done => rfl
    | round h0 => exact absurd rfl h0
  | round h0 hdiv hsig _ ih =>
    cases h' with
    | done => exact absurd rfl h0
    | round _ hdiv' hsig' hrest' =>
      rw [hdiv] at hdiv'
      cases hdiv'
      rw [hsig] at hsig'
      cases hsig'
      rw [ih hrest']

/-- The division of a round writes all limbs that the next round reads. -/
theorem Peels.step (h2 : 2 ≤ radix) (hr : radix ≤ 36) {n : Nat} {cur next : Units}
    {digits : List Char} (hn : n ≠ 0) (hcur : n ≤ cur.length) (hnext : n ≤ next.length)
    (h : Peels radix (Units.significant (chunkQuotient radix (cur.take n)))
      (chunkQuotient radix (cur.take n) ++ next.drop n) cur digits) :
    Peels radix n cur next
      (chunkDigits radix.toUInt64 (Units.significant (chunkQuotient radix (cur.take n)) == 0)
        (chunkLength radix) (chunkRemainder radix (cur.take n)) ++ digits) := by
  have hlen : (chunkQuotient radix (cur.take n)).length = n := by
    rw [length_chunkQuotient, List.length_take, Nat.min_eq_left hcur]
  have hroom : n ≤ (chunkQuotient radix (cur.take n) ++ next.drop n).length := by
    rw [List.length_append]
    omega
  have hdiv := Units.Checked.divLimb_accepted (chunkBase_ne_zero h2 hr) hnext hcur
  have hsig := Units.Checked.significant_accepted hroom
  rw [List.take_left' hlen] at hsig
  exact .round hn hdiv hsig h

/-- The loop ends, whatever the second buffer holds, and has then printed the number at the front
of the first one. -/
theorem peels (h2 : 2 ≤ radix) (hr : radix ≤ 36) {n : Nat} {cur next : Units}
    (hcur : n ≤ cur.length) (hnext : n ≤ next.length) (htop : Units.significant (cur.take n) = n) :
    Peels radix n cur next (digitText radix (Units.val (cur.take n))) := by
  induction hv : Units.val (cur.take n) using Nat.strongRecOn generalizing n cur next with
  | ind v ih =>
    subst hv
    by_cases h0 : Units.val (cur.take n) = 0
    · have hn : n = 0 := htop ▸ (Units.significant_eq_zero_iff _).mpr h0
      rw [h0, digitText_zero, hn]
      exact .done cur next
    · have hn : n ≠ 0 := fun hn => h0 (by rw [hn, List.take_zero, Units.val_nil])
      obtain ⟨-, -, hhalf⟩ := chunk_value h2 hr (cur.take n)
      have hlast := Units.significant_eq_zero_iff (chunkQuotient radix (cur.take n))
      have hle := Units.significant_le (chunkQuotient radix (cur.take n))
      have hlen : (chunkQuotient radix (cur.take n)).length = n := by
        rw [length_chunkQuotient, List.length_take, Nat.min_eq_left hcur]
      have hfront : (chunkQuotient radix (cur.take n) ++ next.drop n).take
          (Units.significant (chunkQuotient radix (cur.take n))) =
            Units.trimmed (chunkQuotient radix (cur.take n)) :=
        List.take_append_of_le_length hle
      rw [← round_digits h2 hr h0 (beq_iff_eq.trans hlast)]
      refine Peels.step h2 hr hn hcur hnext ?_
      exact ih _ (by omega) (by rw [List.length_append]; omega) (by omega)
        (by rw [hfront, Units.significant_trimmed]) (by rw [hfront, Units.val_trimmed])

/-! ## Numbers -/

def numeralDigits (radix n : Nat) : List Char :=
  if n = 0 then ['0'] else (digitText radix n).reverse

def numeral (radix : Nat) (v : Int) : List Char :=
  (if v < 0 then ['-'] else []) ++ numeralDigits radix v.natAbs

end CryptoPrimitives.Radix

namespace CryptoPrimitives.BigInt

open Radix

variable {radix : Nat} {x : BigInt}

theorem Canonical.significant_units (h : Canonical x) : Units.significant x.units = x.size := by
  apply eq_of_forall_ge_iff
  intro k
  rw [Units.significant_le_iff, h.size_le_iff]
  rfl

theorem Canonical.trimmed_units (h : Canonical x) : Units.trimmed x.units = x.units := by
  rw [Units.trimmed, h.significant_units, ← h.length_units, List.take_length]

theorem print_eq (h2 : 2 ≤ radix) (hr : radix ≤ 36) (hx : Canonical x) :
    x.print radix = .ok (String.ofList (numeral radix x.toInt)) := by
  have hlt : Units.val x.units < 2 ^ (x.bitLength + 1) := by
    rw [bitLength, Units.bit_length_eq]
    exact (Nat.lt_size_self _).trans (Nat.pow_lt_pow_succ (by decide))
  have hdigits := unitsDigits_eq h2 hr _ x.units hlt
  rw [hx.trimmed_units, ← magnitude, ← toInt_natAbs] at hdigits
  have hneg : x.negative = decide (x.toInt < 0) := by
    rw [Bool.eq_iff_iff, hx.negative_iff, decide_eq_true_eq]
  unfold print numeral numeralDigits
  rw [check_ok h2 hr]
  by_cases h0 : x.toInt = 0
  · rw [hx.isZero_iff.mpr h0, h0]
    rfl
  · rw [if_neg (Int.natAbs_ne_zero.mpr h0), Bool.eq_false_iff.mpr (mt hx.isZero_iff.mp h0),
      hdigits, hneg]
    simp only [decide_eq_true_eq]
    rfl

/-- The two buffers hold the limbs of the number and anything as long. -/
theorem peels_units (h2 : 2 ≤ radix) (hr : radix ≤ 36) (hx : Canonical x) {next : Units}
    (hnext : x.size ≤ next.length) :
    Peels radix x.size x.units next (digitText radix x.toInt.natAbs) := by
  have htake : x.units.take x.size = x.units := by rw [← hx.length_units, List.take_length]
  have h := peels h2 hr hx.length_units.ge hnext (by rw [htake, hx.significant_units])
  rwa [htake, ← magnitude, ← toInt_natAbs] at h

end CryptoPrimitives.BigInt
