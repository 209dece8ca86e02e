import CryptoPrimitives.Bytes
import Mathlib.Tactic.Ring

/-!
# CTR_DRBG as the standard has it

SP 800-90A, 10.2.1 and 10.3.2, over a block cipher `E key block` with keys of `keyLen` bytes and
blocks of 16. The counter block counts as a number, and each loop goes on while bytes are missing.
-/

set_option autoImplicit false

namespace CryptoPrimitives.CtrStandard

def leftmost (n : Nat) (bytes : Bytes) : Bytes := bytes.take n

def rightmost (n : Nat) (bytes : Bytes) : Bytes := bytes.drop (bytes.length - n)

def xorBytes (a b : Bytes) : Bytes :=
  (List.range (min a.length b.length)).map fun i => a.getD i 0 ^^^ b.getD i 0

def numeral : Nat → Nat → Bytes
  | 0, _ => []
  | width + 1, n => numeral width (n / 256) ++ [n.toUInt8]

section loops

variable {σ : Type}

def gather (round : σ → Bytes × σ) (wanted : Nat) : Nat → Bytes → σ → Bytes × σ
  | 0, temp, s => (temp, s)
  | bound + 1, temp, s =>
    if temp.length < wanted then
      gather round wanted bound (temp ++ (round s).1) (round s).2
    else (temp, s)

def whileShort (round : σ → Bytes × σ) (wanted : Nat) (s : σ) : Bytes × σ :=
  gather round wanted wanted [] s

def padToBlock : Nat → Bytes → Bytes
  | 0, s => s
  | bound + 1, s => if s.length % 16 = 0 then s else padToBlock bound (s ++ [0])

def rounds (round : σ → Bytes × σ) : Nat → σ → Bytes × σ
  | 0, s => ([], s)
  | n + 1, s => ((round s).1 ++ (rounds round n (round s).2).1, (rounds round n (round s).2).2)

end loops

/-! ## The derivation function -/

section

variable (keyLen : Nat) (E : Bytes → Bytes → Bytes)

def blocks (data : Bytes) : List Bytes :=
  (List.range (data.length / 16)).map fun i => (data.drop (16 * i)).take 16

def bcc (key data : Bytes) : Bytes :=
  (blocks data).foldl (fun chaining block => E key (xorBytes chaining block)) (Bytes.zeros 16)

def df (input : Bytes) (wanted : Nat) : Bytes :=
  let s := padToBlock 16 (numeral 4 input.length ++ numeral 4 wanted ++ input ++ [0x80])
  let k := leftmost keyLen ((List.range 32).map Nat.toUInt8)
  let condensed :=
    (whileShort (fun i => (bcc E k (numeral 4 i ++ Bytes.zeros 12 ++ s), i + 1)) (keyLen + 16) 0).1
  let key := leftmost keyLen condensed
  let x := (condensed.drop keyLen).take 16
  leftmost wanted (whileShort (fun x => (E key x, E key x)) wanted x).1

/-! ## The mechanism -/

structure State where
  key : Bytes
  v : Bytes
  deriving DecidableEq, Repr

def seedLen : Nat := keyLen + 16

def increment (v : Bytes) : Bytes := numeral 16 ((Bytes.value v + 1) % 2 ^ 128)

def counterRound (key v : Bytes) : Bytes × Bytes := (E key (increment v), increment v)

def update (provided : Bytes) (s : State) : State :=
  let temp := (whileShort (counterRound E s.key) (seedLen keyLen) s.v).1
  let temp := xorBytes (leftmost (seedLen keyLen) temp) provided
  ⟨leftmost keyLen temp, rightmost 16 temp⟩

def padded (data : Bytes) : Bytes := data ++ Bytes.zeros (seedLen keyLen - data.length)

def seedMaterial (useDf : Bool) (input entropy rest : Bytes) : Bytes :=
  if useDf then df keyLen E input (seedLen keyLen) else xorBytes entropy (padded keyLen rest)

def instantiate (useDf : Bool) (entropy nonce personalization : Bytes) : State :=
  update keyLen E
    (seedMaterial keyLen E useDf (entropy ++ nonce ++ personalization) entropy personalization)
    ⟨Bytes.zeros keyLen, Bytes.zeros 16⟩

def reseed (useDf : Bool) (entropy additional : Bytes) (s : State) : State :=
  update keyLen E (seedMaterial keyLen E useDf (entropy ++ additional) entropy additional) s

def conditioned (useDf : Bool) (additional : Bytes) : Bytes :=
  if additional = [] then Bytes.zeros (seedLen keyLen)
  else if useDf then df keyLen E additional (seedLen keyLen)
  else padded keyLen additional

def generate (useDf : Bool) (length : Nat) (additional : Bytes) (s : State) : Bytes × State :=
  let input := conditioned keyLen E useDf additional
  let s := if additional = [] then s else update keyLen E input s
  let drawn := whileShort (counterRound E s.key) length s.v
  (leftmost length drawn.1, update keyLen E input ⟨s.key, drawn.2⟩)

def generateEach (useDf : Bool) (additional : Bytes) : List Nat → State → Bytes × State
  | [], s => ([], s)
  | length :: lengths, s =>
    let first := generate keyLen E useDf length additional s
    let rest := generateEach useDf additional lengths first.2
    (first.1 ++ rest.1, rest.2)

end

/-! ## Strings combined -/

/-- Each place of the combination has the bytes of that place. -/
theorem xorBytes_eq (a b : Bytes) : xorBytes a b = Bytes.xor a b := by
  refine List.ext_getElem ?_ fun i hi _ => ?_
  · rw [xorBytes, List.length_map, List.length_range, Bytes.xor, List.length_zipWith]
  · rw [xorBytes, List.length_map, List.length_range, Nat.lt_min] at hi
    simp only [xorBytes, Bytes.xor, List.getElem_map, List.getElem_range, List.getElem_zipWith,
      List.getD_eq_getElem?_getD, List.getElem?_eq_getElem hi.1, List.getElem?_eq_getElem hi.2,
      Option.getD_some]

/-! ## Loops as numbers of rounds -/

theorem ceilDiv_zero (size : Nat) (hsize : 0 < size) : ceilDiv 0 size = 0 :=
  Nat.div_eq_of_lt (by omega)

theorem ceilDiv_step (a size : Nat) (hsize : 0 < size) (ha : 0 < a) :
    ceilDiv a size = ceilDiv (a - size) size + 1 := by
  have hone : ceilDiv a size = (a - 1) / size + 1 := by
    rw [← Nat.add_div_right _ hsize, ceilDiv]
    congr 1
    omega
  rw [hone, ceilDiv]
  by_cases hle : a ≤ size
  · rw [Nat.div_eq_of_lt (by omega), Nat.div_eq_of_lt (by omega)]
  · congr 2
    omega

theorem le_ceilDiv_mul (a size : Nat) (hsize : 0 < size) : a ≤ size * ceilDiv a size := by
  have hdiv := Nat.div_add_mod (a + size - 1) size
  have hmod := Nat.mod_lt (a + size - 1) hsize
  rw [ceilDiv]
  omega

section sized

variable {σ : Type} {size : Nat} (round : σ → Bytes × σ)

theorem gather_rounds (hsize : 0 < size) (hround : ∀ s, (round s).1.length = size)
    (wanted bound : Nat) (temp : Bytes) (s : σ) (hbound : wanted - temp.length ≤ bound) :
    gather round wanted bound temp s =
      (temp ++ (rounds round (ceilDiv (wanted - temp.length) size) s).1,
        (rounds round (ceilDiv (wanted - temp.length) size) s).2) := by
  induction bound generalizing temp s with
  | zero =>
    rw [gather, Nat.le_zero.mp hbound, ceilDiv_zero size hsize, rounds, List.append_nil]
  | succ bound ih =>
    rw [gather]
    by_cases hshort : temp.length < wanted
    · have hlen : (temp ++ (round s).1).length = temp.length + size := by
        rw [List.length_append, hround]
      rw [if_pos hshort, ih _ _ (by omega), hlen, Nat.sub_add_eq,
        ceilDiv_step (wanted - temp.length) size hsize (by omega), rounds, List.append_assoc]
    · have hnone : wanted - temp.length = 0 := by omega
      rw [if_neg hshort, hnone, ceilDiv_zero size hsize, rounds, List.append_nil]

theorem whileShort_blocks (hsize : 0 < size) (hround : ∀ s, (round s).1.length = size)
    (wanted : Nat) (s : σ) : whileShort round wanted s = rounds round (ceilDiv wanted size) s := by
  rw [whileShort, gather_rounds round hsize hround _ _ _ _ (by simp)]
  simp

theorem whileShort_rounds (hround : ∀ s, (round s).1.length = 16) (wanted : Nat) (s : σ) :
    whileShort round wanted s = rounds round (ceilDiv wanted 16) s :=
  whileShort_blocks round (by decide) hround wanted s

theorem length_rounds (hround : ∀ s, (round s).1.length = size) (n : Nat) (s : σ) :
    (rounds round n s).1.length = size * n := by
  induction n generalizing s with
  | zero => rfl
  | succ n ih =>
    rw [rounds, List.length_append, hround, ih]
    ring

end sized

theorem padToBlock_eq (bound : Nat) (s : Bytes) (hbound : (16 - s.length % 16) % 16 ≤ bound) :
    padToBlock bound s = s ++ Bytes.zeros ((16 - s.length % 16) % 16) := by
  induction bound generalizing s with
  | zero =>
    rw [Nat.le_zero.mp hbound]
    exact (List.append_nil s).symm
  | succ bound ih =>
    rw [padToBlock]
    by_cases hfull : s.length % 16 = 0
    · rw [if_pos hfull, hfull]
      exact (List.append_nil s).symm
    · have hlen : (s ++ [0]).length = s.length + 1 := List.length_append
      have hone : (16 - s.length % 16) % 16 = (16 - (s.length + 1) % 16) % 16 + 1 := by omega
      rw [if_neg hfull, ih _ (by rw [hlen]; omega), hlen, hone, List.append_assoc, Bytes.zeros,
        Bytes.zeros, List.replicate_succ, List.singleton_append]

end CryptoPrimitives.CtrStandard
