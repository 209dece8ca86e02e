import CryptoPrimitives.BigInt.Bytes
import CryptoPrimitives.Proofs.BigInt.Shift
import CryptoPrimitives.Proofs.Bytes.Value
import CryptoPrimitives.Proofs.Drbg.Derivation

/-!
# Numbers and byte strings

Limbs are strings of eight bytes, so a number has the value of the string it is read from, and the
strings it is written to have its magnitude. The shorter of the two is as short as the bit length
says: leading zeros are lost on the way in and none are added on the way out.
-/

set_option autoImplicit false

namespace CryptoPrimitives

/-! ## Limbs -/

namespace Limb

theorem ofBytesLE_value (bytes : Bytes) (h : bytes.length ≤ 8) :
    (ofBytesLE bytes).toNat = Bytes.value bytes.reverse := by
  induction bytes with
  | nil => rfl
  | cons b bytes ih =>
    have hlen : bytes.length ≤ 7 := by
      rw [List.length_cons] at h
      omega
    have hv := ih (by omega)
    have hlt : Bytes.value bytes.reverse < 2 ^ 56 := by
      have hbound := Bytes.value_lt bytes.reverse
      rw [List.length_reverse] at hbound
      exact hbound.trans_le (Nat.pow_le_pow_right (by decide) hlen)
    have hshift := Units.toNat_shiftLeft (ofBytesLE bytes) 8 (by decide)
    rw [hv, Nat.mod_eq_of_lt hlt] at hshift
    have hb : b.toUInt64.toNat < 2 ^ 8 := by simpa using b.toNat_lt
    have hjoin := Units.toNat_or_low _ b.toUInt64 8 _ hshift hb
    rw [List.reverse_cons, CtrStandard.value_concat]
    exact hjoin

theorem toBytesLE_numeral (u : Limb) : (toBytesLE u).reverse = CtrStandard.numeral 8 u.toNat := by
  have hbyte : ∀ i < 8, (u >>> (8 * i).toUInt64).toUInt8 = (u.toNat / 256 ^ i).toUInt8 := by
    intro i hi
    apply UInt8.toNat_inj.mp
    have hpow : 256 ^ i = 2 ^ (8 * i) := by rw [Nat.pow_mul]
    rw [UInt64.toNat_toUInt8, Units.toNat_shiftRight u (8 * i) (by omega), hpow]
    rfl
  have hlist : toBytesLE u = (List.range 8).map fun i => (u.toNat / 256 ^ i).toUInt8 := by
    apply List.map_congr_left
    intro i hi
    exact hbyte i (List.mem_range.mp hi)
  rw [hlist]
  simp [List.range_succ, CtrStandard.numeral, Nat.div_div_eq_div_mul]

theorem length_toBytesLE (u : Limb) : (toBytesLE u).length = 8 := by simp [toBytesLE]

theorem toBytesLE_value (u : Limb) : Bytes.value (toBytesLE u).reverse = u.toNat := by
  rw [toBytesLE_numeral, CtrStandard.value_numeral]
  exact Nat.mod_eq_of_lt u.toNat_lt

end Limb

namespace Units

/-- Cut into limbs from the low end, a string keeps its value. -/
theorem val_chunks (bytes : Bytes) :
    val ((Bytes.chunks 8 bytes).map Limb.ofBytesLE) = Bytes.value bytes.reverse := by
  induction hn : bytes.length using Nat.strongRecOn generalizing bytes with
  | ind n ih =>
    subst hn
    by_cases hshort : bytes.length ≤ 8
    · cases bytes with
      | nil => rfl
      | cons b bytes =>
        have hone : Bytes.chunks 8 (b :: bytes) = [b :: bytes] := by
          rw [Bytes.chunks, List.length_cons, Bytes.chunksFrom, List.take_of_length_le hshort,
            List.drop_eq_nil_of_le hshort]
          cases bytes.length <;> rfl
        rw [hone, List.map_singleton, val_cons, val_nil, Limb.ofBytesLE_value _ hshort]
        rfl
    · have htake : (bytes.take 8).length = 8 := by simp; omega
      have hrest := ih (bytes.drop 8).length (by rw [List.length_drop]; omega) _ rfl
      have hcut := Bytes.chunks_append 8 (bytes.take 8) (bytes.drop 8) (by decide) htake
      rw [List.take_append_drop] at hcut
      rw [hcut, List.map_cons, val_cons, hrest, Limb.ofBytesLE_value _ htake.le]
      conv_rhs => rw [← List.take_append_drop 8 bytes]
      rw [List.reverse_append, Bytes.value_append, List.length_reverse, htake]
      ring

theorem length_limbBytes (us : Units) : (us.flatMap Limb.toBytesLE).length = 8 * us.length := by
  induction us with
  | nil => rfl
  | cons u us ih => simp [Limb.length_toBytesLE, ih]; omega

theorem limbBytes_value (us : Units) :
    Bytes.value (us.flatMap Limb.toBytesLE).reverse = val us := by
  induction us with
  | nil => rfl
  | cons u us ih =>
    rw [List.flatMap_cons, List.reverse_append, Bytes.value_append, ih, Limb.toBytesLE_value,
      List.length_reverse, Limb.length_toBytesLE, val_cons]
    ring

end Units

/-! ## Numbers -/

namespace BigInt

theorem ofBytesBE_represents (bytes : Bytes) :
    Represents (ofBytesBE bytes).val (Bytes.value bytes) := by
  have hw := write_written (empty_canonical .secure)
    ((Bytes.chunks 8 bytes.reverse).map Limb.ofBytesLE)
  rw [Units.val_chunks, List.reverse_reverse] at hw
  exact ⟨hw.canonical, hw.toInt_eq⟩

/-- The byte length is the least number of bytes for the magnitude. -/
theorem byteLength_le_iff (x : BigInt) (n : Nat) : x.byteLength ≤ n ↔ x.magnitude < 256 ^ n := by
  have hpow : 256 ^ n = 2 ^ (8 * n) := by rw [Nat.pow_mul]
  rw [byteLength, bitLength_eq, hpow, ← Nat.size_le, ceilDiv]
  omega

theorem byteLength_least (x : BigInt) : IsLeast {n | x.magnitude < 256 ^ n} x.byteLength :=
  ⟨(byteLength_le_iff x _).mp (Nat.le_refl _), fun n hn => (byteLength_le_iff x n).mpr hn⟩

/-- No byte lies past the significant limbs. -/
theorem byteLength_le (x : BigInt) : x.byteLength ≤ 8 * x.units.length := by
  have hpow : 256 ^ (8 * x.units.length) = 2 ^ (64 * x.units.length) := by
    rw [Nat.pow_mul, Nat.pow_mul]
  rw [byteLength_le_iff, hpow]
  exact Units.val_lt x.units

theorem length_lowBytesBE (x : BigInt) : (x.lowBytesBE x.byteLength).length = x.byteLength := by
  rw [lowBytesBE, List.length_reverse, List.length_take, Units.length_limbBytes,
    Nat.min_eq_left x.byteLength_le]

theorem lowBytesBE_value (x : BigInt) : Bytes.value (x.lowBytesBE x.byteLength) = x.magnitude := by
  have hlen := Units.length_limbBytes x.units
  have hroom : x.byteLength ≤ ((x.units.flatMap Limb.toBytesLE).reverse).length := by
    rw [List.length_reverse, hlen]
    exact x.byteLength_le
  have hlow := Bytes.value_drop _ hroom
  rw [Units.limbBytes_value] at hlow
  rw [lowBytesBE, List.reverse_take, ← List.length_reverse, hlow]
  exact Nat.mod_eq_of_lt x.byteLength_least.1

theorem toBytesBE_value (x : BigInt) : Bytes.value x.toBytesBE = x.magnitude := by
  rw [toBytesBE]
  split
  · next h0 =>
    have hm := x.byteLength_least.1
    rw [h0] at hm
    have hz : x.magnitude = 0 := by simpa using hm
    rw [hz]
    rfl
  · exact x.lowBytesBE_value

theorem toBytesBEPadded_value {x : BigInt} {length : Nat} (h : x.byteLength ≤ length) :
    ∃ bytes, x.toBytesBEPadded length = .ok bytes ∧ bytes.length = length ∧
      Bytes.value bytes = x.magnitude := by
  refine ⟨_, if_neg (Nat.not_lt.mpr h), ?_, ?_⟩
  · rw [List.length_append, Bytes.length_zeros, length_lowBytesBE]
    omega
  · rw [Bytes.value_append, Bytes.value_zeros, Nat.zero_mul, Nat.zero_add, lowBytesBE_value]

/-- What comes back is what went in without its leading zeros. -/
theorem toBytesBE_ofBytesBE (bytes : Bytes) :
    (ofBytesBE bytes).val.toBytesBE =
      if Bytes.significant bytes = [] then [0] else Bytes.significant bytes := by
  have hm := (ofBytesBE_represents bytes).magnitude_eq
  have hlen : (ofBytesBE bytes).val.byteLength = (Bytes.significant bytes).length := by
    apply eq_of_forall_ge_iff
    intro n
    rw [byteLength_le_iff, hm, Bytes.length_significant_le_iff]
  have hlow := (ofBytesBE bytes).val.length_lowBytesBE
  have hvalue := (ofBytesBE bytes).val.lowBytesBE_value
  rw [toBytesBE, hlen]
  rw [hlen] at hlow hvalue
  by_cases hnil : Bytes.significant bytes = []
  · rw [if_pos hnil, hnil]
    rfl
  · rw [if_neg hnil, if_neg (fun h => hnil (List.eq_nil_of_length_eq_zero h))]
    apply Bytes.value_injective hlow
    rw [hvalue, hm, Bytes.value_significant]

/-- A number has the value of the bytes it is read from, and gives them back without their leading
zeros; written in its least number of bytes or padded to more, a number keeps its magnitude, and it
does not fit fewer. -/
theorem bytes_keep_magnitudes :
    (∀ bytes : Bytes, Represents (ofBytesBE bytes).val (Bytes.value bytes) ∧
      (ofBytesBE bytes).val.toBytesBE =
        if Bytes.significant bytes = [] then [0] else Bytes.significant bytes) ∧
    ∀ x : BigInt, Represents (ofBytesBE x.toBytesBE).val |x.toInt| ∧
      ∃ need, IsLeast {n | x.toInt.natAbs < 256 ^ n} need ∧ need ≤ 8 * x.units.length ∧
        ∀ length,
          (need ≤ length → ∃ bytes, x.toBytesBEPadded length = .ok bytes ∧
            bytes.length = length ∧ (Bytes.value bytes : Int) = |x.toInt|) ∧
          (length < need → x.toBytesBEPadded length = .error (.bufferTooSmall need length)) := by
  refine ⟨fun bytes => ⟨ofBytesBE_represents bytes, toBytesBE_ofBytesBE bytes⟩, fun x => ?_⟩
  have habs : |x.toInt| = x.magnitude := by rw [Int.abs_eq_natAbs, toInt_natAbs]
  have hr := ofBytesBE_represents x.toBytesBE
  rw [toBytesBE_value] at hr
  rw [habs, toInt_natAbs]
  refine ⟨hr, x.byteLength, x.byteLength_least, x.byteLength_le,
    fun length => ⟨fun h => ?_, fun h => if_pos h⟩⟩
  obtain ⟨bytes, hok, hlen, hvalue⟩ := toBytesBEPadded_value h
  exact ⟨bytes, hok, hlen, by rw [hvalue]⟩

/-- Leading zeros are dropped, and a negative number of nine bytes fits twelve but not eight. -/
theorem bytes_keep_magnitudes_nine :
    let x : BigInt := ⟨[5, 1, 0, 0], 2, true, .secure⟩
    (ofBytesBE [0, 0, 7, 9]).val.toBytesBE = [7, 9] ∧ (ofBytesBE [0, 0]).val.toBytesBE = [0] ∧
      x.toBytesBEPadded 8 = .error (.bufferTooSmall 9 8) ∧
      ∃ bytes, x.toBytesBEPadded 12 = .ok bytes ∧ bytes.length = 12 ∧
        (Bytes.value bytes : Int) = |x.toInt| := by
  intro x
  obtain ⟨hread, hwrite⟩ := bytes_keep_magnitudes
  obtain ⟨-, need, hleast, -, hpadded⟩ := hwrite x
  have hnine : IsLeast {n | x.toInt.natAbs < 256 ^ n} 9 := by
    refine ⟨show 2 ^ 64 + 5 < 256 ^ 9 by decide, fun n hn => ?_⟩
    by_contra hshort
    have hpow : 256 ^ n ≤ 256 ^ 8 := Nat.pow_le_pow_right (by decide) (by omega)
    have hlt : 2 ^ 64 + 5 < 256 ^ n := hn
    omega
  have hneed : need = 9 := hleast.unique hnine
  subst hneed
  exact ⟨(hread [0, 0, 7, 9]).2, (hread [0, 0]).2, (hpadded 8).2 (by decide),
    (hpadded 12).1 (by decide)⟩

end BigInt

end CryptoPrimitives
