import CryptoPrimitives.BigInt.Radix
import Mathlib.Data.Nat.Digits.Lemmas

/-!
# The grammar of numerals

A numeral is an optional sign and one or more digits of its radix, in either case. `Reads` gives the
answer that every text has: the integer that a numeral denotes, or the first thing that is wrong
with the text. The alphabet of digits is written out, so that nothing here refers to the reader.
-/

set_option autoImplicit false

namespace CryptoPrimitives.Radix

/-! ## Digits -/

def alphabet : List Char :=
  ['0', '1', '2', '3', '4', '5', '6', '7', '8', '9', 'a', 'b', 'c', 'd', 'e', 'f', 'g', 'h', 'i',
   'j', 'k', 'l', 'm', 'n', 'o', 'p', 'q', 'r', 's', 't', 'u', 'v', 'w', 'x', 'y', 'z']

def IsDigit (radix : Nat) (ch : Char) (value : Nat) : Prop :=
  value < radix ∧ alphabet[value]? = some ch.toLower

/-! ## Signs -/

inductive Sign
  | none
  | plus
  | minus
  deriving DecidableEq, Repr

namespace Sign

def text : Sign → List Char
  | none => []
  | plus => ['+']
  | minus => ['-']

def apply : Sign → Nat → Int
  | none, n => n
  | plus, n => n
  | minus, n => -n

end Sign

structure Signed (text : List Char) (sign : Sign) (rest : List Char) : Prop where
  text_eq : text = sign.text ++ rest
  greedy : sign = .none → ∀ ch ∈ rest.head?, ch ≠ '+' ∧ ch ≠ '-'

/-! ## Texts -/

def utf8Length (cs : List Char) : Nat := (String.ofList cs).utf8ByteSize

/-- The answer to a text in a radix. The radix is judged first, then whether anything follows the
sign, then the characters from left to right. -/
inductive Reads (radix : Nat) (text : List Char) : Except Fault Int → Prop
  | badRadix : ¬(2 ≤ radix ∧ radix ≤ 36) → Reads radix text (.error (.invalidRadix radix))
  | nothing {sign : Sign} : 2 ≤ radix → radix ≤ 36 → Signed text sign [] →
      Reads radix text (.error .invalidInput)
  | badDigit {sign : Sign} {good rest : List Char} {bad : Char} : 2 ≤ radix → radix ≤ 36 →
      Signed text sign (good ++ bad :: rest) → (∀ ch ∈ good, ∃ v, IsDigit radix ch v) →
      (¬∃ v, IsDigit radix bad v) →
      Reads radix text (.error (.invalidDigit bad (utf8Length (sign.text ++ good))))
  | numeral {sign : Sign} {digits : List Char} {values : List Nat} : 2 ≤ radix → radix ≤ 36 →
      Signed text sign digits → digits ≠ [] → List.Forall₂ (IsDigit radix) digits values →
      Reads radix text (.ok (sign.apply (Nat.ofDigits radix values.reverse)))

theorem signed_exists (text : List Char) : ∃ sign rest, Signed text sign rest := by
  match text with
  | '-' :: rest => exact ⟨.minus, rest, rfl, fun h => by cases h⟩
  | '+' :: rest => exact ⟨.plus, rest, rfl, fun h => by cases h⟩
  | [] => exact ⟨.none, [], rfl, fun _ ch h => by cases h⟩
  | ch :: rest =>
    by_cases hplus : ch = '+'
    · exact ⟨.plus, rest, by rw [hplus]; rfl, fun h => by cases h⟩
    · by_cases hminus : ch = '-'
      · exact ⟨.minus, rest, by rw [hminus]; rfl, fun h => by cases h⟩
      · refine ⟨.none, ch :: rest, rfl, fun _ c hc => ?_⟩
        cases hc
        exact ⟨hplus, hminus⟩

/-- Digits to the end, or up to a first character that is none. -/
theorem digits_or_bad (radix : Nat) (cs : List Char) :
    (∃ values, List.Forall₂ (IsDigit radix) cs values) ∨
      ∃ good bad rest, cs = good ++ bad :: rest ∧ (∀ ch ∈ good, ∃ v, IsDigit radix ch v) ∧
        ¬∃ v, IsDigit radix bad v := by
  induction cs with
  | nil => exact .inl ⟨[], .nil⟩
  | cons ch cs ih =>
    by_cases hch : ∃ v, IsDigit radix ch v
    · rcases ih with ⟨values, hvs⟩ | ⟨good, bad, rest, rfl, hgood, hbad⟩
      · obtain ⟨v, hv⟩ := hch
        exact .inl ⟨v :: values, .cons hv hvs⟩
      · exact .inr ⟨ch :: good, bad, rest, rfl, List.forall_mem_cons.mpr ⟨hch, hgood⟩, hbad⟩
    · exact .inr ⟨[], ch, cs, rfl, by simp, hch⟩

theorem reads_total (radix : Nat) (text : List Char) : ∃ r, Reads radix text r := by
  by_cases hr : 2 ≤ radix ∧ radix ≤ 36
  · obtain ⟨sign, rest, hsigned⟩ := signed_exists text
    rcases digits_or_bad radix rest with ⟨values, hvs⟩ | ⟨good, bad, tail, rfl, hgood, hbad⟩
    · by_cases hrest : rest = []
      · exact ⟨_, .nothing hr.1 hr.2 (hrest ▸ hsigned)⟩
      · exact ⟨_, .numeral hr.1 hr.2 hsigned hrest hvs⟩
    · exact ⟨_, .badDigit hr.1 hr.2 hsigned hgood hbad⟩
  · exact ⟨_, .badRadix hr⟩

end CryptoPrimitives.Radix
