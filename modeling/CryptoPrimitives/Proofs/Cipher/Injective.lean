import CryptoPrimitives.Cipher.BlockCipher
import CryptoPrimitives.Proofs.Drbg.Counter
import Mathlib.Data.List.Nodup

/-!
# The block cipher can be undone

Under any schedule different blocks have different encryptions: the substitution takes no value
twice, the columns come back after being mixed four times, and a round key is taken off by adding
it again.
-/

set_option autoImplicit false

namespace CryptoPrimitives

def BlockCipher.Injective (c : BlockCipher) : Prop :=
  ∀ {key a b : Bytes}, key.length = c.keyLen → a.length = 16 → b.length = 16 →
    c.encrypt key a = c.encrypt key b → a = b

namespace Aes

open CtrStandard

/-! ## Words and their bytes -/

theorem be32_inj {w w' : Word} (h : Bytes.be32 w = Bytes.be32 w') : w = w' := by
  have hvalue : ∀ w : Word, Bytes.value (Bytes.be32 w) = w.toNat := by
    intro w
    have hw : w.toNat.toUInt32 = w := UInt32.ofNat_toNat
    have hlt : w.toNat < 256 ^ 4 := w.toNat_lt
    rw [← hw, be32_numeral, value_numeral, hw, Nat.mod_eq_of_lt hlt]
  rw [← UInt32.toNat_inj, ← hvalue w, h, hvalue w']

theorem word_ext {w w' : Word} (h0 : byte0 w = byte0 w') (h1 : byte1 w = byte1 w')
    (h2 : byte2 w = byte2 w') (h3 : byte3 w = byte3 w') : w = w' := by
  have hbytes : ∀ w : Word, Bytes.be32 w = [byte0 w, byte1 w, byte2 w, byte3 w] := fun _ => rfl
  apply be32_inj
  rw [hbytes w, hbytes w', h0, h1, h2, h3]

theorem toNat_wordOf (a b c d : UInt8) :
    (wordOf a b c d).toNat = 256 * (256 * (256 * a.toNat + b.toNat) + c.toNat) + d.toNat := by
  have hb := b.toNat_lt
  have hc := c.toNat_lt
  have hd := d.toNat_lt
  have hfits : ∀ (x : UInt8) {k : Nat}, k ≤ 24 → x.toNat <<< k % 2 ^ 32 = x.toNat <<< k := by
    intro x k hk
    have hx := x.toNat_lt
    have hpow : x.toNat * 2 ^ k ≤ x.toNat * 2 ^ 24 :=
      Nat.mul_le_mul_left _ (Nat.pow_le_pow_right (by decide) hk)
    rw [Nat.shiftLeft_eq]
    exact Nat.mod_eq_of_lt (by omega)
  have hlow : c.toNat <<< 8 ||| d.toNat = 256 * c.toNat + d.toNat := by
    rw [← Nat.shiftLeft_add_eq_or_of_lt hd, Nat.shiftLeft_eq, Nat.mul_comm]
  have hthree : b.toNat <<< 16 ||| (256 * c.toNat + d.toNat) =
      256 * (256 * b.toNat + c.toNat) + d.toNat := by
    rw [← Nat.shiftLeft_add_eq_or_of_lt (by omega), Nat.shiftLeft_eq]
    omega
  have hfour : a.toNat <<< 24 ||| (256 * (256 * b.toNat + c.toNat) + d.toNat) =
      256 * (256 * (256 * a.toNat + b.toNat) + c.toNat) + d.toNat := by
    rw [← Nat.shiftLeft_add_eq_or_of_lt (by omega), Nat.shiftLeft_eq]
    omega
  rw [← hfour, ← hthree, ← hlow, ← hfits a (by decide : 24 ≤ 24), ← hfits b (by decide : 16 ≤ 24),
    ← hfits c (by decide : 8 ≤ 24), ← Nat.or_assoc, ← Nat.or_assoc]
  rfl

theorem be32_wordOf (a b c d : UInt8) : Bytes.be32 (wordOf a b c d) = [a, b, c, d] := by
  have hword : (wordOf a b c d).toNat.toUInt32 = wordOf a b c d := UInt32.ofNat_toNat
  have htop : numeral 1 a.toNat = [a] := congrArg (fun b => [b]) UInt8.ofNat_toNat
  rw [← hword, be32_numeral, toNat_wordOf, numeral_concat, numeral_concat, numeral_concat, htop]
  rfl

theorem wordOf_bytes (a b c d : UInt8) :
    byte0 (wordOf a b c d) = a ∧ byte1 (wordOf a b c d) = b ∧ byte2 (wordOf a b c d) = c ∧
      byte3 (wordOf a b c d) = d := by
  have hbytes : [byte0 (wordOf a b c d), byte1 (wordOf a b c d), byte2 (wordOf a b c d),
      byte3 (wordOf a b c d)] = [a, b, c, d] := be32_wordOf a b c d
  simpa only [List.cons.injEq, and_true] using hbytes

theorem state_ext {s s' : State} (h0 : s.c0 = s'.c0) (h1 : s.c1 = s'.c1) (h2 : s.c2 = s'.c2)
    (h3 : s.c3 = s'.c3) : s = s' := by
  cases s
  cases s'
  exact State.mk.injEq .. ▸ ⟨h0, h1, h2, h3⟩

/-! ## Substitution -/

/-- No value comes twice in the table. -/
theorem subByte_inj {a b : UInt8} (h : subByte a = subByte b) : a = b := by
  have hdistinct : (sbox.toList.map UInt8.toNat).Nodup := by decide +kernel
  have hsize : sbox.size = 256 := by decide +kernel
  have hentry : ∀ (table : Array UInt8) {i : Nat} (hi : i < table.size),
      table.getD i 0 = table.toList[i] := fun table i hi => dif_pos hi
  have hin : ∀ x : UInt8, x.toNat < sbox.size := by
    intro x
    rw [hsize]
    exact x.toNat_lt
  rw [subByte, subByte, hentry sbox (hin a), hentry sbox (hin b),
    hdistinct.of_map.getElem_inj_iff] at h
  exact UInt8.toNat_inj.mp h

theorem subColumn_inj {w x y z w' x' y' z' : Word}
    (h : subColumn w x y z = subColumn w' x' y' z') :
    byte0 w = byte0 w' ∧ byte1 x = byte1 x' ∧ byte2 y = byte2 y' ∧ byte3 z = byte3 z' := by
  have hbytes := congrArg Bytes.be32 h
  rw [subColumn, subColumn, be32_wordOf, be32_wordOf] at hbytes
  simp only [List.cons.injEq] at hbytes
  obtain ⟨h0, h1, h2, h3, -⟩ := hbytes
  exact ⟨subByte_inj h0, subByte_inj h1, subByte_inj h2, subByte_inj h3⟩

/-- Each column gives its bytes to four columns, and they are all there. -/
theorem subShift_inj {s s' : State} (h : subShift s = subShift s') : s = s' := by
  obtain ⟨a0, b1, c2, d3⟩ := subColumn_inj (congrArg State.c0 h)
  obtain ⟨b0, c1, d2, a3⟩ := subColumn_inj (congrArg State.c1 h)
  obtain ⟨c0, d1, a2, b3⟩ := subColumn_inj (congrArg State.c2 h)
  obtain ⟨d0, a1, b2, c3⟩ := subColumn_inj (congrArg State.c3 h)
  exact state_ext (word_ext a0 a1 a2 a3) (word_ext b0 b1 b2 b3) (word_ext c0 c1 c2 c3)
    (word_ext d0 d1 d2 d3)

/-! ## Columns -/

/-- Nothing of a word meets itself when it is rotated. -/
theorem rotl_eq (x : Word) {n : Word} (hn : n = 8 ∨ n = 16 ∨ n = 24) :
    rotl x n = x <<< n ^^^ x >>> (32 - n) := by
  apply UInt32.toBitVec_inj.mp
  ext i hi
  have hapart : ∀ k ≤ 32, i < k ∨ x.toBitVec.getLsbD (32 - k + i) = false := by
    intro k hk
    rcases Nat.lt_or_ge i k with h | h
    · exact .inl h
    · exact .inr (BitVec.getLsbD_of_ge _ _ (by omega))
  rcases hn with rfl | rfl | rfl
  · rcases hapart 8 (by decide) with h | h <;> simp_all [rotl]
  · rcases hapart 16 (by decide) with h | h <;> simp_all [rotl]
  · rcases hapart 24 (by decide) with h | h <;> simp_all [rotl]

theorem rotl_xor (x y : Word) {n : Word} (hn : n = 8 ∨ n = 16 ∨ n = 24) :
    rotl (x ^^^ y) n = rotl x n ^^^ rotl y n := by
  rw [rotl_eq _ hn, rotl_eq _ hn, rotl_eq _ hn, UInt32.shiftLeft_xor, UInt32.shiftRight_xor]
  ac_rfl

def bitBytes (b3 b2 b1 b0 : Bool) : Word :=
  wordOf b3.toUInt8 b2.toUInt8 b1.toUInt8 b0.toUInt8

theorem bitBytes_bit : ∀ b3 b2 b1 b0 : Bool, ∀ i < 32,
    (bitBytes b3 b2 b1 b0).toBitVec.getLsbD i =
      if i = 24 then b3 else if i = 16 then b2 else if i = 8 then b1 else i = 0 && b0 := by
  decide +kernel

theorem and_lowBits (v : Word) :
    v &&& 0x01010101 = bitBytes (v.toBitVec.getLsbD 24) (v.toBitVec.getLsbD 16)
      (v.toBitVec.getLsbD 8) (v.toBitVec.getLsbD 0) := by
  have hmask : (0x01010101 : Word) = bitBytes true true true true := rfl
  apply UInt32.toBitVec_inj.mp
  refine BitVec.eq_of_getLsbD_eq fun i hi => ?_
  rw [hmask, UInt32.toBitVec_and, BitVec.getLsbD_and, bitBytes_bit _ _ _ _ i hi,
    bitBytes_bit _ _ _ _ i hi]
  split
  · simp_all
  split
  · simp_all
  split
  · simp_all
  · by_cases hzero : i = 0 <;> simp_all

theorem xor_and (a b m : Word) : (a ^^^ b) &&& m = (a &&& m) ^^^ (b &&& m) :=
  UInt32.toNat_inj.mp Nat.and_xor_distrib_right

/-- The bits that a doubling carries out of their bytes are reduced one by one. -/
theorem carries_mul (x y : Word) :
    ((x &&& 0x01010101) ^^^ (y &&& 0x01010101)) * 0x1b =
      ((x &&& 0x01010101) * 0x1b) ^^^ ((y &&& 0x01010101) * 0x1b) := by
  have hbits : ∀ a3 a2 a1 a0 b3 b2 b1 b0 : Bool,
      (bitBytes a3 a2 a1 a0 ^^^ bitBytes b3 b2 b1 b0) * 0x1b =
        (bitBytes a3 a2 a1 a0 * 0x1b) ^^^ (bitBytes b3 b2 b1 b0 * 0x1b) := by
    decide +kernel
  rw [and_lowBits x, and_lowBits y]
  exact hbits _ _ _ _ _ _ _ _

theorem doubleWord_xor (x y : Word) : doubleWord (x ^^^ y) = doubleWord x ^^^ doubleWord y := by
  simp only [doubleWord, UInt32.shiftRight_xor, xor_and, carries_mul, UInt32.shiftLeft_xor]
  ac_rfl

theorem mixColumn_xor (x y : Word) : mixColumn (x ^^^ y) = mixColumn x ^^^ mixColumn y := by
  have hone : ∀ x y : Word, rotl (x ^^^ y) 8 = rotl x 8 ^^^ rotl y 8 :=
    fun x y => rotl_xor x y (.inl rfl)
  have htwo : ∀ x y : Word, rotl (x ^^^ y) 16 = rotl x 16 ^^^ rotl y 16 :=
    fun x y => rotl_xor x y (.inr (.inl rfl))
  have hthree : ∀ x y : Word, rotl (x ^^^ y) 24 = rotl x 24 ^^^ rotl y 24 :=
    fun x y => rotl_xor x y (.inr (.inr rfl))
  simp only [mixColumn, doubleWord_xor, hone, htwo, hthree]
  ac_rfl

theorem xor_bytes (x y : Word) :
    byte0 (x ^^^ y) = byte0 x ^^^ byte0 y ∧ byte1 (x ^^^ y) = byte1 x ^^^ byte1 y ∧
      byte2 (x ^^^ y) = byte2 x ^^^ byte2 y ∧ byte3 (x ^^^ y) = byte3 x ^^^ byte3 y := by
  simp only [byte0, byte1, byte2, byte3, UInt32.shiftRight_xor, UInt32.toUInt8_xor, and_self]

theorem word_split (w : Word) :
    w = wordOf (byte0 w) 0 0 0 ^^^ (wordOf 0 (byte1 w) 0 0 ^^^
      (wordOf 0 0 (byte2 w) 0 ^^^ wordOf 0 0 0 (byte3 w))) := by
  refine word_ext ?_ ?_ ?_ ?_ <;> simp [xor_bytes, wordOf_bytes]

/-- Mixed four times, a column is what it was: it is so for a column with one byte. -/
theorem mixColumn_four (w : Word) : mixColumn (mixColumn (mixColumn (mixColumn w))) = w := by
  have htable : ∀ i : Fin 256,
      mixColumn (mixColumn (mixColumn (mixColumn (wordOf (.ofNat i) 0 0 0)))) =
          wordOf (.ofNat i) 0 0 0 ∧
        mixColumn (mixColumn (mixColumn (mixColumn (wordOf 0 (.ofNat i) 0 0)))) =
          wordOf 0 (.ofNat i) 0 0 ∧
        mixColumn (mixColumn (mixColumn (mixColumn (wordOf 0 0 (.ofNat i) 0)))) =
          wordOf 0 0 (.ofNat i) 0 ∧
        mixColumn (mixColumn (mixColumn (mixColumn (wordOf 0 0 0 (.ofNat i))))) =
          wordOf 0 0 0 (.ofNat i) := by
    decide +kernel
  have hbyte : ∀ b : UInt8, _ := fun b => htable ⟨b.toNat, b.toNat_lt⟩
  simp only [UInt8.ofNat_toNat] at hbyte
  conv => lhs; rw [word_split w]
  simp only [mixColumn_xor]
  rw [(hbyte (byte0 w)).1, (hbyte (byte1 w)).2.1, (hbyte (byte2 w)).2.2.1,
    (hbyte (byte3 w)).2.2.2, ← word_split]

theorem mixColumn_inj {w w' : Word} (h : mixColumn w = mixColumn w') : w = w' := by
  rw [← mixColumn_four w, h, mixColumn_four]

theorem mixColumns_inj {s s' : State} (h : mixColumns s = mixColumns s') : s = s' := by
  obtain ⟨h0, h1, h2, h3⟩ := State.mk.inj h
  exact state_ext (mixColumn_inj h0) (mixColumn_inj h1) (mixColumn_inj h2) (mixColumn_inj h3)

/-! ## Rounds -/

theorem addRoundKey_inj (schedule : Array Word) (i : Nat) {s s' : State}
    (h : addRoundKey schedule i s = addRoundKey schedule i s') : s = s' := by
  obtain ⟨h0, h1, h2, h3⟩ := State.mk.inj h
  exact state_ext ((UInt32.xor_left_inj _).mp h0) ((UInt32.xor_left_inj _).mp h1)
    ((UInt32.xor_left_inj _).mp h2) ((UInt32.xor_left_inj _).mp h3)

theorem rounds_inj (schedule : Array Word) (left i : Nat) {s s' : State}
    (h : rounds schedule left i s = rounds schedule left i s') : s = s' := by
  fun_induction rounds schedule left i s generalizing s' with
  | case1 i s => exact h
  | case2 i s => exact subShift_inj (addRoundKey_inj schedule i h)
  | case3 left i s ih =>
    exact subShift_inj (mixColumns_inj (addRoundKey_inj schedule i (ih h)))

/-! ## Blocks -/

theorem toBytes_inj {s s' : State} (h : s.toBytes = s'.toBytes) : s = s' := by
  obtain ⟨h012, h3⟩ := List.append_inj h rfl
  obtain ⟨h01, h2⟩ := List.append_inj h012 rfl
  obtain ⟨h0, h1⟩ := List.append_inj h01 rfl
  exact state_ext (be32_inj h0) (be32_inj h1) (be32_inj h2) (be32_inj h3)

theorem toBytes_ofBytes : ∀ {block : Bytes}, block.length = 16 →
    (State.ofBytes block).toBytes = block
  | [_, _, _, _, _, _, _, _, _, _, _, _, _, _, _, _], _ => by
    simp only [State.ofBytes, words, State.toBytes, be32_wordOf, List.cons_append, List.nil_append]

/-- Whatever the schedule. -/
theorem encrypt_inj (schedule : Array Word) {a b : Bytes} (ha : a.length = 16)
    (hb : b.length = 16) (h : encrypt schedule a = encrypt schedule b) : a = b := by
  have hstates : State.ofBytes a = State.ofBytes b :=
    addRoundKey_inj schedule 0 (rounds_inj schedule _ 1 (toBytes_inj h))
  rw [← toBytes_ofBytes ha, hstates, toBytes_ofBytes hb]

end Aes

theorem CipherAlg.blockCipher_injective (alg : CipherAlg) : alg.blockCipher.Injective :=
  fun _ ha hb h => Aes.encrypt_inj _ ha hb h

end CryptoPrimitives
