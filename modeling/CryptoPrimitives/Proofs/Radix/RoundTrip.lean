import CryptoPrimitives.Proofs.BigInt.Integers
import CryptoPrimitives.Proofs.Radix.Printing
import CryptoPrimitives.Proofs.Radix.Reading

/-!
# Canonical numerals

Of all texts that denote an integer one is canonical. Printing writes that one, and reading it gives
the integer back. What printing makes of a text that has been read is the text itself, tidied.
-/

set_option autoImplicit false

namespace CryptoPrimitives.Radix

variable {radix : Nat}

/-! ## The canonical numeral -/

structure Spells (radix : Nat) (v : Int) (text digits : List Char) : Prop where
  sign : text = (if v < 0 then ['-'] else []) ++ digits
  digits_ne_nil : digits ≠ []
  lower : ∀ ch ∈ digits, ch ∈ alphabet.take radix
  leading : digits.head? = some '0' → text = ['0']
  reads : Reads radix text (.ok v)

theorem alphabet_not_sign : ∀ ch ∈ alphabet, ch ≠ '+' ∧ ch ≠ '-' := by
  have hall : alphabet.all (fun ch => ch != '+' && ch != '-') = true := by decide
  simpa using hall

theorem digitChar_mem {v : Nat} (hr : radix ≤ 36) (hv : v < radix) :
    digitChar v ∈ alphabet.take radix := by
  apply List.mem_of_getElem? (i := v)
  rw [List.getElem?_take_of_lt hv]
  exact alphabet_getElem? v (by omega)

theorem digitChar_eq_zero {v : Nat} (hv : v < 36) (h : digitChar v = '0') : v = 0 := by
  revert v
  decide

theorem digits_isDigit (h2 : 2 ≤ radix) (hr : radix ≤ 36) (n : Nat) :
    List.Forall₂ (IsDigit radix) (digitText radix n) (Nat.digits radix n) := by
  rw [digitText, List.forall₂_map_left_iff, List.forall₂_same]
  exact fun v hv => digitChar_isDigit hr (Nat.digits_lt_base (by omega) hv)

/-- The digits denote the number. -/
theorem numeralDigits_denote (h2 : 2 ≤ radix) (hr : radix ≤ 36) (n : Nat) :
    ∃ values, List.Forall₂ (IsDigit radix) (numeralDigits radix n) values ∧
      Nat.ofDigits radix values.reverse = n := by
  by_cases h0 : n = 0
  · rw [numeralDigits, if_pos h0, h0]
    exact ⟨[0], .cons ⟨by omega, rfl⟩ .nil, rfl⟩
  · rw [numeralDigits, if_neg h0]
    refine ⟨(Nat.digits radix n).reverse, List.rel_reverse (digits_isDigit h2 hr n), ?_⟩
    rw [List.reverse_reverse, Nat.ofDigits_digits]

theorem numeralDigits_ne_nil (h2 : 2 ≤ radix) (n : Nat) : numeralDigits radix n ≠ [] := by
  unfold numeralDigits
  split
  · exact List.cons_ne_nil _ _
  · next h0 =>
    rw [Ne, List.reverse_eq_nil_iff, digitText_of_pos h2 h0]
    exact List.cons_ne_nil _ _

theorem numeralDigits_lower (h2 : 2 ≤ radix) (hr : radix ≤ 36) (n : Nat) :
    ∀ ch ∈ numeralDigits radix n, ch ∈ alphabet.take radix := by
  intro ch hch
  unfold numeralDigits at hch
  split at hch
  · rw [List.mem_singleton.mp hch]
    exact digitChar_mem hr (show 0 < radix by omega)
  · obtain ⟨v, hv, rfl⟩ := List.mem_map.mp (List.mem_reverse.mp hch)
    exact digitChar_mem hr (Nat.digits_lt_base (by omega) hv)

/-- Only zero starts with a zero. -/
theorem numeralDigits_leading (h2 : 2 ≤ radix) (hr : radix ≤ 36) {n : Nat}
    (h : (numeralDigits radix n).head? = some '0') : n = 0 := by
  by_contra h0
  rw [numeralDigits, if_neg h0, List.head?_reverse, digitText, List.getLast?_map,
    List.getLast?_eq_some_getLast (Nat.digits_ne_nil_iff_ne_zero.mpr h0), Option.map_some,
    Option.some_inj] at h
  have hlt : (Nat.digits radix n).getLast (Nat.digits_ne_nil_iff_ne_zero.mpr h0) < radix :=
    Nat.digits_lt_base (by omega) (List.getLast_mem _)
  exact Nat.getLast_digit_ne_zero radix h0 (digitChar_eq_zero (by omega) h)

def signOf (v : Int) : Sign := if v < 0 then .minus else .none

/-- Digits are no signs, so the sign that is written is the sign that is read. -/
theorem signed_of_lower (v : Int) {digits : List Char}
    (h : ∀ ch ∈ digits, ch ∈ alphabet.take radix) :
    Signed ((if v < 0 then ['-'] else []) ++ digits) (signOf v) digits := by
  constructor
  · unfold signOf
    split <;> rfl
  · intro _ ch hch
    have hmem := h ch (List.mem_of_mem_head? hch)
    exact alphabet_not_sign ch (List.mem_of_mem_take hmem)

theorem signOf_apply (v : Int) : (signOf v).apply v.natAbs = v := by
  unfold signOf
  split
  · next h => exact (congrArg Neg.neg (Int.ofNat_natAbs_of_nonpos h.le)).trans (Int.neg_neg v)
  · next h => exact Int.natAbs_of_nonneg (by omega)

theorem numeral_reads (h2 : 2 ≤ radix) (hr : radix ≤ 36) (v : Int) :
    Reads radix (numeral radix v) (.ok v) := by
  obtain ⟨values, hdigits, hval⟩ := numeralDigits_denote h2 hr v.natAbs
  have h := Reads.numeral h2 hr (signed_of_lower v (numeralDigits_lower h2 hr v.natAbs))
    (numeralDigits_ne_nil h2 _) hdigits
  rwa [hval, signOf_apply] at h

theorem numeral_spells (h2 : 2 ≤ radix) (hr : radix ≤ 36) (v : Int) :
    Spells radix v (numeral radix v) (numeralDigits radix v.natAbs) where
  sign := rfl
  digits_ne_nil := numeralDigits_ne_nil h2 _
  lower := numeralDigits_lower h2 hr _
  leading h := by
    have h0 := Int.natAbs_eq_zero.mp (numeralDigits_leading h2 hr h)
    rw [h0]
    rfl
  reads := numeral_reads h2 hr v

/-! ## Tidying a text -/

def tidyDigits (digits : List Char) : List Char :=
  match digits.dropWhile (· == '0') with
  | [] => ['0']
  | kept => kept.map Char.toLower

def tidy : List Char → List Char
  | '-' :: digits => (if tidyDigits digits = ['0'] then [] else ['-']) ++ tidyDigits digits
  | '+' :: digits => tidyDigits digits
  | digits => tidyDigits digits

section Tidy

variable {digits : List Char} {values : List Nat}

theorem lower_eq_zero_iff (ch : Char) : ch.toLower = '0' ↔ ch = '0' := by
  rw [← Char.toNat_inj, ← Char.toNat_inj, lower_toNat]
  show _ = 48 ↔ _ = 48
  split_ifs <;> omega

theorem ofDigits_cons_reverse (v : Nat) (values : List Nat) :
    Nat.ofDigits radix (v :: values).reverse =
      Nat.ofDigits radix values.reverse + radix ^ values.length * v := by
  rw [List.reverse_cons, Nat.ofDigits_append, Nat.ofDigits_singleton, List.length_reverse]

theorem lower_digits (hr : radix ≤ 36) (h : List.Forall₂ (IsDigit radix) digits values) :
    digits.map Char.toLower = values.map digitChar := by
  induction h with
  | nil => rfl
  | cons hv _ ih => rw [List.map_cons, List.map_cons, ((isDigit_iff hr _).mp hv).2, ih]

/-- Lowered digits without a leading zero are those of their number. -/
theorem lower_numeral (h2 : 2 ≤ radix) (hr : radix ≤ 36) {ch : Char} {v : Nat} (hv : v ≠ 0)
    (h : List.Forall₂ (IsDigit radix) (ch :: digits) (v :: values)) :
    (ch :: digits).map Char.toLower =
      numeralDigits radix (Nat.ofDigits radix (v :: values).reverse) := by
  have hdigits : Nat.digits radix (Nat.ofDigits radix (v :: values).reverse) =
      (v :: values).reverse := by
    apply Nat.digits_ofDigits radix (by omega)
    · exact fun w hw => IsDigit.all_lt h w (List.mem_reverse.mp hw)
    · intro hne
      rwa [List.getLast_reverse, List.head_cons]
  have hpos : Nat.ofDigits radix (v :: values).reverse ≠ 0 := by
    rw [ofDigits_cons_reverse]
    positivity
  rw [numeralDigits, if_neg hpos, digitText, hdigits, List.map_reverse, List.reverse_reverse,
    lower_digits hr h]

theorem tidyDigits_eq (h2 : 2 ≤ radix) (hr : radix ≤ 36)
    (h : List.Forall₂ (IsDigit radix) digits values) :
    tidyDigits digits = numeralDigits radix (Nat.ofDigits radix values.reverse) := by
  induction h with
  | nil => rfl
  | @cons ch v digits values hv hrest ih =>
    have hch := ((isDigit_iff hr ch).mp hv).2
    by_cases h0 : v = 0
    · rw [h0] at hch
      have hzero : ch = '0' := (lower_eq_zero_iff ch).mp hch
      rw [ofDigits_cons_reverse, h0, Nat.mul_zero, Nat.add_zero, ← ih, hzero]
      rfl
    · have hne : ch ≠ '0' := by
        rintro rfl
        exact h0 (digitChar_eq_zero (by have := hv.1; omega) hch.symm)
      rw [← lower_numeral h2 hr h0 (.cons hv hrest), tidyDigits,
        List.dropWhile_cons_of_neg (by simpa using hne)]

/-- Zero is the only number with that numeral. -/
theorem numeralDigits_eq_zero_iff (h2 : 2 ≤ radix) (hr : radix ≤ 36) {n : Nat} :
    numeralDigits radix n = ['0'] ↔ n = 0 := by
  constructor
  · intro h
    apply numeralDigits_leading h2 hr
    rw [h, List.head?_cons]
  · intro h
    rw [numeralDigits, if_pos h]

theorem tidy_signed {text : List Char} {sign : Sign} (h : Signed text sign digits) :
    tidy text = (if sign = .minus ∧ tidyDigits digits ≠ ['0'] then ['-'] else []) ++
      tidyDigits digits := by
  rw [h.text_eq]
  cases sign with
  | minus =>
    show (if tidyDigits digits = ['0'] then [] else ['-']) ++ tidyDigits digits = _
    by_cases h0 : tidyDigits digits = ['0'] <;> simp [h0]
  | plus => rfl
  | none =>
    have hhead := h.greedy rfl
    unfold tidy
    split
    · next heq => exact absurd rfl (hhead '-' (congrArg List.head? heq)).2
    · next heq => exact absurd rfl (hhead '+' (congrArg List.head? heq)).1
    · rfl

theorem Sign.apply_natAbs (sign : Sign) (n : Nat) : (sign.apply n).natAbs = n := by
  cases sign
  · exact Int.natAbs_natCast n
  · exact Int.natAbs_natCast n
  · exact (Int.natAbs_neg _).trans (Int.natAbs_natCast n)

theorem Sign.apply_neg_iff (sign : Sign) (n : Nat) :
    sign.apply n < 0 ↔ sign = .minus ∧ n ≠ 0 := by
  cases sign <;> simp [Sign.apply, Nat.pos_iff_ne_zero]

/-- A numeral that is tidied becomes the canonical one. -/
theorem tidy_eq {text : List Char} {v : Int} (h : Reads radix text (.ok v)) :
    tidy text = numeral radix v := by
  cases h with
  | @numeral sign digits values h2 hr hsigned hne hdigits =>
    rw [tidy_signed hsigned, tidyDigits_eq h2 hr hdigits, numeral, Sign.apply_natAbs]
    simp only [ne_eq, numeralDigits_eq_zero_iff h2 hr, Sign.apply_neg_iff]

end Tidy

/-! ## Uniqueness -/

theorem alphabet_lower : ∀ ch ∈ alphabet, ch.toLower = ch := by
  have hall : alphabet.all (fun ch => ch.toLower == ch) = true := by decide
  simpa using hall

/-- Digits in lower case without a leading zero are left as they are. -/
theorem tidyDigits_self {digits : List Char} (hne : digits ≠ [])
    (hlower : ∀ ch ∈ digits, ch ∈ alphabet) (h0 : digits.head? ≠ some '0') :
    tidyDigits digits = digits := by
  have hmap : digits.map Char.toLower = digits :=
    (List.map_congr_left fun ch hch => alphabet_lower ch (hlower ch hch)).trans (List.map_id digits)
  cases digits with
  | nil => exact absurd rfl hne
  | cons ch rest =>
    have hch : ch ≠ '0' := fun h => h0 (by rw [h, List.head?_cons])
    rw [tidyDigits, List.dropWhile_cons_of_neg (by simpa using hch)]
    exact hmap

/-- An integer has one canonical numeral. -/
theorem Spells.text_eq {v : Int} {text digits : List Char} (h : Spells radix v text digits) :
    text = numeral radix v := by
  rw [← tidy_eq h.reads]
  by_cases h0 : digits.head? = some '0'
  · rw [h.leading h0]
    rfl
  · have hself := tidyDigits_self h.digits_ne_nil
      (fun ch hch => List.mem_of_mem_take (h.lower ch hch)) h0
    have hne : digits ≠ ['0'] := fun hz => h0 (by rw [hz, List.head?_cons])
    rw [h.sign, tidy_signed (signed_of_lower v h.lower), hself]
    unfold signOf
    split <;> simp [hne]

end CryptoPrimitives.Radix

namespace CryptoPrimitives.BigInt

open Radix

section Printing

variable [Rendition] {radix : Nat}

/-- Reading a text that denotes the value of a number gives that number. -/
theorem parse_same {x : BigInt} {text : String} (hx : Canonical x)
    (h : Reads radix text.toList (.ok x.toInt)) (alloc : Allocator) :
    ∃ y, (parse text radix alloc).outcome = .ok y ∧ Canonical y ∧ y.same x = true := by
  have hanswer := parse_reads alloc h
  cases hok : (parse text radix alloc).outcome with
  | error e =>
    rw [Attempt.answer_error hok] at hanswer
    cases hanswer
  | ok y =>
    rw [Attempt.answer_ok hok] at hanswer
    have hy := parse_yields text radix alloc y hok
    exact ⟨y, rfl, hy, (same_iff hy hx).mpr (Except.ok.inj hanswer)⟩

/-- A text has one answer. -/
theorem reads_unique {text : List Char} {r r' : Except Fault Int} (h : Reads radix text r)
    (h' : Reads radix text r') : r = r' := by
  rw [← String.toList_ofList (l := text)] at h h'
  rw [← parse_reads .secure h, parse_reads .secure h']

theorem numeral_injective (h2 : 2 ≤ radix) (hr : radix ≤ 36) {v w : Int}
    (h : numeral radix v = numeral radix w) : v = w :=
  Except.ok.inj (reads_unique (numeral_reads h2 hr v) (h ▸ numeral_reads h2 hr w))

theorem print_injective (h2 : 2 ≤ radix) (hr : radix ≤ 36) {x y : BigInt} (hx : Canonical x)
    (hy : Canonical y) (h : y.print radix = x.print radix) : y.same x = true := by
  rw [print_eq h2 hr hx, print_eq h2 hr hy] at h
  exact (same_iff hy hx).mpr
    (numeral_injective h2 hr (String.ofList_injective (Except.ok.inj h)))

/-- What is printed after reading is what was read, tidied. -/
theorem print_parse (h2 : 2 ≤ radix) (hr : radix ≤ 36) {source : String} {alloc : Allocator}
    {y : BigInt} (h : (parse source radix alloc).outcome = .ok y) :
    y.print radix = .ok (String.ofList (tidy source.toList)) := by
  have hreads := reads_parse alloc (Attempt.answer_ok h)
  rw [print_eq h2 hr (parse_yields source radix alloc y h), tidy_eq hreads]

/-- Every number is printed as its canonical numeral, which is read as that number and printed for
no other one; and a text that is accepted is printed again as it was, tidied. The loop of the
printer ends, with these digits only, whatever the buffer that it divides into first has held. -/
theorem print_canonical_numeral (radix : Nat) (h2 : 2 ≤ radix) (hr : radix ≤ 36) :
    (∀ x, Canonical x → ∃ text, x.print radix = .ok text ∧
      (∃ digits, Spells radix x.toInt text.toList digits) ∧
      (∀ other digits, Spells radix x.toInt other digits → other = text.toList) ∧
      (∀ alloc, ∃ y, (parse text radix alloc).outcome = .ok y ∧ Canonical y ∧ y.same x = true) ∧
      (∀ y, Canonical y → y.print radix = .ok text → y.same x = true) ∧
      ∀ next : Units, x.size ≤ next.length →
        ∃ digits, (∀ out, Peels radix x.size x.units next out ↔ out = digits) ∧
          (x.toInt ≠ 0 →
            text.toList = (if x.negative then ['-'] else []) ++ digits.reverse)) ∧
    ∀ source alloc y, (parse source radix alloc).outcome = .ok y →
      y.print radix = .ok (String.ofList (tidy source.toList)) := by
  refine ⟨fun x hx => ⟨_, print_eq h2 hr hx, ?_, fun other digits h => ?_, ?_, fun y hy h => ?_,
    fun next hnext => ?_⟩, fun source alloc y h => print_parse h2 hr h⟩
  · rw [String.toList_ofList]
    exact ⟨_, numeral_spells h2 hr x.toInt⟩
  · rw [String.toList_ofList]
    exact h.text_eq
  · have hreads := numeral_reads h2 hr x.toInt
    rw [← String.toList_ofList (l := numeral radix x.toInt)] at hreads
    exact parse_same hx hreads
  · exact print_injective h2 hr hx hy (h.trans (print_eq h2 hr hx).symm)
  · have hpeels := peels_units h2 hr hx hnext
    refine ⟨_, fun out => ⟨fun h => h.unique hpeels, fun h => h ▸ hpeels⟩, fun h0 => ?_⟩
    have hneg : (x.negative = true) = (x.toInt < 0) := propext hx.negative_iff
    rw [String.toList_ofList, numeral, numeralDigits, if_neg (Int.natAbs_ne_zero.mpr h0)]
    simp only [hneg]

end Printing

/-- A negative power of ten that fills one chunk and has a quotient, with a stale second buffer; and
a text with everything that tidying takes away. -/
theorem print_canonical_numeral_chunk :
    let x : BigInt := ⟨[10000000000000000000, 0], 1, true, .secure⟩
    Canonical x ∧ x.print 10 = .ok "-10000000000000000000" ∧
      (∃ digits, Spells 10 x.toInt "-10000000000000000000".toList digits) ∧
      (∃ digits, Peels 10 1 x.units [7] digits ∧
        "-10000000000000000000".toList = ['-'] ++ digits.reverse) ∧
      ∃ y, (parse "+00fF" 16 .secure).outcome = .ok y ∧ y.print 16 = .ok "ff" := by
  intro x
  have hx : Canonical x := ⟨by decide, by decide, by decide, by decide⟩
  obtain ⟨text, htext, hspells, -, -, -, hloop⟩ :=
    (print_canonical_numeral 10 (by decide) (by decide)).1 x hx
  have hprint : x.print 10 = .ok "-10000000000000000000" := by decide +kernel
  have heq : text = "-10000000000000000000" := Except.ok.inj (htext.symm.trans hprint)
  subst heq
  obtain ⟨digits, hpeels, hdigits⟩ := hloop [7] (by decide)
  refine ⟨hx, hprint, hspells, ⟨digits, (hpeels digits).mpr rfl, hdigits (by decide)⟩, ?_⟩
  have hparse : (parse "+00fF" 16 .secure).outcome.isOk = true := by decide +kernel
  cases hok : (parse "+00fF" 16 .secure).outcome with
  | error e =>
    rw [hok] at hparse
    cases hparse
  | ok y =>
    have h := (print_canonical_numeral 16 (by decide) (by decide)).2 _ _ y hok
    exact ⟨y, rfl, h⟩

end CryptoPrimitives.BigInt
