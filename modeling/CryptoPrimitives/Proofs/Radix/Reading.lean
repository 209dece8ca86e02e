import CryptoPrimitives.Proofs.BigInt.Made
import CryptoPrimitives.Proofs.Radix.Digits
import CryptoPrimitives.Proofs.Units.Product

/-!
# Reading numerals

The accumulator holds the value of the digits read so far: the chunks folded into the limbs, and the
chunk that is being gathered, which stays below the power of the radix that it spans. Every text has
the answer that the grammar gives it, and no step leaves a limb.
-/

set_option autoImplicit false

namespace CryptoPrimitives.Radix

open BigInt (Canonical Represents)

variable {radix : Nat}

/-! ## Gathering digits -/

structure Holds (radix : Nat) (values : List Nat) (a : Accumulator) : Prop where
  value : Units.val a.units * radix ^ a.count + a.chunk.toNat = Nat.ofDigits radix values.reverse
  chunk_lt : a.chunk.toNat < radix ^ a.count
  count_lt : a.count < chunkLength radix

variable {values : List Nat} {a : Accumulator} {d : Nat}

theorem holds_nil (hr : radix ≤ 36) : Holds radix [] ⟨[], 0, 0⟩ :=
  ⟨rfl, Nat.one_pos, (chunkBase_power hr).2⟩

/-- The chunk with one more digit stays below the next power. -/
theorem Holds.next_lt (h : Holds radix values a) (hd : d < radix) :
    a.chunk.toNat * radix + d < radix ^ (a.count + 1) := by
  have hmul := Nat.mul_le_mul_right radix (Nat.succ_le_of_lt h.chunk_lt)
  rw [Nat.succ_mul] at hmul
  rw [pow_succ]
  omega

theorem ofDigits_snoc (values : List Nat) (d : Nat) :
    Nat.ofDigits radix (values ++ [d]).reverse =
      Nat.ofDigits radix values.reverse * radix + d := by
  rw [List.reverse_append, List.reverse_singleton, List.singleton_append, Nat.ofDigits_cons,
    Nat.add_comm, Nat.mul_comm]

theorem Holds.next_fits (h2 : 2 ≤ radix) (hr : radix ≤ 36) (h : Holds radix values a)
    (hd : d < radix) : a.chunk.toNat * radix + d < Limb.base :=
  (h.next_lt hd).trans (power_fits h2 hr h.count_lt)

theorem Holds.next_toNat (h2 : 2 ≤ radix) (hr : radix ≤ 36) (h : Holds radix values a)
    (hd : d < radix) :
    (a.chunk * radix.toUInt64 + d.toUInt64).toNat = a.chunk.toNat * radix + d := by
  have hfit := h.next_fits h2 hr hd
  have hb := radix_fits hr
  rw [UInt64.toNat_add, toNat_mul_radix hb (by omega), toUInt64_toNat (hd.trans hb)]
  exact Nat.mod_eq_of_lt hfit

section Gathering

variable [Rendition]

/-- A digit goes into the chunk, and a full chunk into the limbs. -/
theorem Holds.push (h2 : 2 ≤ radix) (hr : radix ≤ 36) (h : Holds radix values a)
    (hd : d < radix) : Holds radix (values ++ [d]) (a.push radix d) := by
  have hnext := h.next_toNat h2 hr hd
  have hlt := h.next_lt hd
  have hvalue : Units.val a.units * radix ^ (a.count + 1) + (a.chunk.toNat * radix + d) =
      Nat.ofDigits radix (values ++ [d]).reverse := by
    rw [ofDigits_snoc, ← h.value, pow_succ]
    ring
  have hcount := h.count_lt
  unfold Accumulator.push
  by_cases hfull : a.count + 1 = (chunkBase radix).1
  · simp only [hfull, if_true]
    refine ⟨?_, Nat.one_pos, (chunkBase_power hr).2⟩
    rw [Units.scaleAdd_value, (chunkBase_power hr).1, hnext, pow_zero, Nat.mul_one,
      UInt64.toNat_zero, Nat.add_zero, ← hvalue, hfull]
    rfl
  · simp only [hfull, if_false]
    refine ⟨by rw [hnext]; exact hvalue, by rw [hnext]; exact hlt, ?_⟩
    unfold chunkLength at *
    simp only
    omega

theorem holds_foldl (h2 : 2 ≤ radix) (hr : radix ≤ 36) (hvalues : ∀ v ∈ values, v < radix) :
    Holds radix values (values.foldl (Accumulator.push radix) ⟨[], 0, 0⟩) := by
  induction values using List.reverseRecOn with
  | nil => exact holds_nil hr
  | append_singleton values d ih =>
    have hall := List.forall_mem_append.mp hvalues
    have hd : d < radix := hall.2 d List.mem_cons_self
    rw [List.foldl_append]
    exact (ih hall.1).push h2 hr hd

/-- The unfinished chunk is folded in by the power that it spans. -/
theorem Holds.flush (h2 : 2 ≤ radix) (hr : radix ≤ 36) (h : Holds radix values a) :
    Units.val (a.flush radix) = Nat.ofDigits radix values.reverse := by
  have hvalue := h.value
  unfold Accumulator.flush
  split
  · next h0 =>
    have hlt := h.chunk_lt
    rw [h0, pow_zero] at hlt hvalue
    omega
  · rw [Units.scaleAdd_value, limbPower_value h2 hr h.count_lt.le, hvalue]

end Gathering

/-! ## Positions -/

theorem utf8Length_append (cs ds : List Char) :
    utf8Length (cs ++ ds) = utf8Length cs + utf8Length ds := by
  rw [utf8Length, String.ofList_append, String.utf8ByteSize_append]
  rfl

theorem utf8Length_cons (ch : Char) (cs : List Char) :
    utf8Length (ch :: cs) = ch.utf8Size + utf8Length cs := by
  rw [← List.singleton_append, utf8Length_append]
  congr 1
  exact String.utf8ByteSize_singleton

/-! ## Characters -/

section Characters

variable [Rendition] {cs : List Char} {values : List Nat}

theorem readDigits_numeral (hr : radix ≤ 36) (h : List.Forall₂ (IsDigit radix) cs values)
    (pos : Nat) (a : Accumulator) :
    readDigits radix cs pos a = .ok (values.foldl (Accumulator.push radix) a) := by
  induction h generalizing pos a with
  | nil => rfl
  | cons hv _ ih =>
    rw [readDigits, (digitValue?_iff hr _ _).mpr hv]
    exact ih _ _

/-- The first character that is no digit is reported with the bytes in front of it. -/
theorem readDigits_bad (hr : radix ≤ 36) {good rest : List Char} {bad : Char}
    (hgood : ∀ ch ∈ good, ∃ v, IsDigit radix ch v) (hbad : ¬∃ v, IsDigit radix bad v)
    (pos : Nat) (a : Accumulator) :
    readDigits radix (good ++ bad :: rest) pos a =
      .error (.invalidDigit bad (pos + utf8Length good)) := by
  induction good generalizing pos a with
  | nil =>
    rw [List.nil_append, readDigits, (digitValue?_eq_none hr bad).mpr hbad]
    rfl
  | cons ch good ih =>
    obtain ⟨⟨v, hv⟩, htail⟩ := List.forall_mem_cons.mp hgood
    rw [List.cons_append, readDigits, (digitValue?_iff hr ch v).mpr hv]
    simp only
    rw [ih htail, utf8Length_cons, Nat.add_assoc]

end Characters

/-! ## Signs -/

def Sign.negative : Sign → Bool
  | .minus => true
  | _ => false

theorem Sign.apply_eq (sign : Sign) (n : Nat) :
    sign.apply n = BigInt.signed sign.negative n := by
  cases sign <;> rfl

/-- The sign is taken off with the bytes that it has. -/
theorem splitSign_eq {text rest : List Char} {sign : Sign} (h : Signed text sign rest) :
    splitSign text = (sign.negative, utf8Length sign.text, rest) := by
  rw [h.text_eq]
  cases sign with
  | minus => rfl
  | plus => rfl
  | none =>
    have hhead := h.greedy rfl
    cases rest with
    | nil => rfl
    | cons ch rest =>
      obtain ⟨hplus, hminus⟩ := hhead ch rfl
      have hsplit : splitSign (ch :: rest) = (false, 0, ch :: rest) := by
        unfold splitSign
        split <;> simp_all
      exact hsplit

/-! ## Texts -/

theorem IsDigit.all_lt {cs : List Char} {values : List Nat}
    (h : List.Forall₂ (IsDigit radix) cs values) : ∀ v ∈ values, v < radix := by
  induction h with
  | nil => exact fun v hv => by cases hv
  | cons hd _ ih => exact List.forall_mem_cons.mpr ⟨hd.1, ih⟩

/-- Each digit takes at most the bits of the largest one, six in the largest radix. -/
theorem room_fits {text : String} {sign : Sign} {rest : List Char} (hr : radix ≤ 36)
    (h : Signed text.toList sign rest) (hlen : text.utf8ByteSize < 2 ^ 61) :
    utf8Length rest * Nat.size (radix - 1) < 2 ^ 64 := by
  have hsize : Nat.size (radix - 1) ≤ 6 := Nat.size_le.mpr (by omega)
  have htext : utf8Length text.toList = text.utf8ByteSize := by
    rw [utf8Length, String.ofList_toList]
  rw [h.text_eq, utf8Length_append] at htext
  have hmul := Nat.mul_le_mul (show utf8Length rest ≤ 2 ^ 61 by omega) hsize
  omega

/-- What is read from a text whose radix is accepted and that has more than a sign. -/
theorem read_eq [Rendition] (h2 : 2 ≤ radix) (hr : radix ≤ 36) {text rest : List Char} {sign : Sign}
    (h : Signed text sign rest) (hrest : rest ≠ []) :
    read text radix = (readDigits radix rest (utf8Length sign.text) ⟨[], 0, 0⟩).map
      fun a => (sign.negative, a.flush radix) := by
  have hne : rest.isEmpty = false := by simpa using hrest
  unfold read
  rw [check_ok h2 hr, splitSign_eq h]
  simp only [hne]
  cases readDigits radix rest (utf8Length sign.text) ⟨[], 0, 0⟩ <;> rfl

end CryptoPrimitives.Radix

namespace CryptoPrimitives.BigInt

open Radix hiding read

section Parsing

variable [Rendition] {radix : Nat} {text : String} (alloc : Allocator)

theorem parse_error {e : Fault} (h : Radix.read text.toList radix = .error e) :
    (parse text radix alloc).outcome = .error e := by
  unfold parse
  rw [h]
  rfl

theorem parse_ok {negative : Bool} {limbs : Units}
    (h : Radix.read text.toList radix = .ok (negative, limbs)) :
    ∃ x, (parse text radix alloc).outcome = .ok x ∧
      Represents x (signed negative (Units.val limbs)) := by
  refine ⟨_, ?_, (write_written (empty_canonical alloc) limbs).represents negative⟩
  unfold parse
  rw [h]
  rfl

theorem parse_reads {r : Except Fault Int} (h : Reads radix text.toList r) :
    (parse text radix alloc).answer = r := by
  cases h with
  | badRadix hradix =>
    apply Attempt.answer_error
    apply parse_error
    unfold Radix.read
    rw [check_error hradix]
    rfl
  | nothing h2 hr hsigned =>
    apply Attempt.answer_error
    apply parse_error
    unfold Radix.read
    rw [check_ok h2 hr, splitSign_eq hsigned]
    rfl
  | badDigit h2 hr hsigned hgood hbad =>
    apply Attempt.answer_error
    apply parse_error
    rw [read_eq h2 hr hsigned (by simp), readDigits_bad hr hgood hbad, utf8Length_append]
    rfl
  | @numeral sign digits values h2 hr hsigned hne hdigits =>
    have hholds := holds_foldl h2 hr (IsDigit.all_lt hdigits)
    have hread := read_eq h2 hr hsigned hne
    rw [readDigits_numeral hr hdigits] at hread
    obtain ⟨x, hok, hx⟩ := parse_ok alloc hread
    rw [hholds.flush h2 hr, ← sign.apply_eq] at hx
    rw [Attempt.answer_ok hok, hx.toInt_eq]

theorem reads_parse {r : Except Fault Int} (h : (parse text radix alloc).answer = r) :
    Reads radix text.toList r := by
  obtain ⟨r', hr'⟩ := reads_total radix text.toList
  rw [← h, parse_reads alloc hr']
  exact hr'

/-- A text is answered as the grammar says: with the integer that it denotes, in canonical form, or
with the first thing that is wrong with it. The reader starts at the byte behind the sign; after any
digits, neither the chunk with another digit nor the power of an unfinished chunk leaves a limb; and
the bits set aside for the digits of a text that a memory of `2 ^ 61` bytes can hold fit a word. -/
theorem parse_follows_grammar (text : String) (radix : Nat) (alloc : Allocator) :
    (∀ r, (parse text radix alloc).answer = r ↔ Reads radix text.toList r) ∧
    (∀ x, (parse text radix alloc).outcome = .ok x →
      Canonical x ∧ (x.toInt = 0 → x.negative = false ∧ x.size = 0)) ∧
    (∃ sign rest, Signed text.toList sign rest ∧
      splitSign text.toList = (sign.negative, utf8Length sign.text, rest) ∧
      (radix ≤ 36 → text.utf8ByteSize < 2 ^ 61 →
        utf8Length rest * Nat.size (radix - 1) < 2 ^ 64)) ∧
    (2 ≤ radix → radix ≤ 36 → ∀ digits values pos, List.Forall₂ (IsDigit radix) digits values →
      ∃ a, readDigits radix digits pos ⟨[], 0, 0⟩ = .ok a ∧
        (∀ d < radix, a.chunk.toNat * radix + d < Limb.base) ∧ radix ^ a.count < Limb.base) := by
  refine ⟨fun r => ⟨reads_parse alloc, parse_reads alloc⟩, fun x hx => ?_, ?_,
    fun h2 hr digits values pos hdigits => ?_⟩
  · have hc := parse_yields text radix alloc x hx
    refine ⟨hc, fun h0 => ⟨?_, hc.toInt_eq_zero_iff.mp h0⟩⟩
    exact Bool.eq_false_iff.mpr fun hn => hc.sign hn (hc.toInt_eq_zero_iff.mp h0)
  · obtain ⟨sign, rest, hsigned⟩ := signed_exists text.toList
    exact ⟨sign, rest, hsigned, splitSign_eq hsigned, fun hr hlen => room_fits hr hsigned hlen⟩
  · have hholds := holds_foldl h2 hr (IsDigit.all_lt hdigits)
    exact ⟨_, readDigits_numeral hr hdigits pos _, fun d hd => hholds.next_fits h2 hr hd,
      power_fits h2 hr hholds.count_lt.le⟩

end Parsing

/-- A sign, a digit and a letter that is none, behind two bytes; and two digits in radix 36. -/
theorem parse_follows_grammar_letters :
    (parse "+1é2" 10 .secure).answer = .error (.invalidDigit 'é' 2) ∧
    (parse "-1Z" 36 .secure).answer = .ok (-71) ∧
    (∃ sign rest, Signed "-1Z".toList sign rest ∧ utf8Length rest * Nat.size 35 < 2 ^ 64) ∧
    ∃ a, readDigits 36 ['1', 'Z'] 1 ⟨[], 0, 0⟩ = .ok a ∧
      (∀ d < 36, a.chunk.toNat * 36 + d < Limb.base) ∧ 36 ^ a.count < Limb.base := by
  have hdigits : List.Forall₂ (IsDigit 36) ['1', 'Z'] [1, 35] :=
    .cons ⟨by decide, by decide⟩ (.cons ⟨by decide, by decide⟩ .nil)
  have hgood : ∀ ch ∈ ['1'], ∃ v, IsDigit 10 ch v := by
    intro ch hch
    rw [List.mem_singleton.mp hch]
    exact ⟨1, by decide, by decide⟩
  have hbad : ¬∃ v, IsDigit 10 'é' v := (digitValue?_eq_none (by decide) 'é').mp (by decide)
  refine ⟨?_, ?_, ?_, ?_⟩
  · apply ((parse_follows_grammar "+1é2" 10 .secure).1 _).mpr
    exact @Reads.badDigit _ _ .plus ['1'] ['2'] 'é' (by decide) (by decide)
      ⟨by decide, fun h => by cases h⟩ hgood hbad
  · apply ((parse_follows_grammar "-1Z" 36 .secure).1 _).mpr
    exact @Reads.numeral _ _ .minus _ _ (by decide) (by decide)
      ⟨by decide, fun h => by cases h⟩ (by decide) hdigits
  · obtain ⟨sign, rest, hsigned, -, hroom⟩ := (parse_follows_grammar "-1Z" 36 .secure).2.2.1
    exact ⟨sign, rest, hsigned, hroom (by decide) (by decide)⟩
  · exact (parse_follows_grammar "-1Z" 36 .secure).2.2.2 (by decide) (by decide) _ _ 1 hdigits

end CryptoPrimitives.BigInt
