import CryptoPrimitives.Proofs.Drbg.Calls

/-!
# HMAC_DRBG as the standard has it

SP 800-90A, 10.1.2, over a keyed function `H key message` whose codes have `outLen` bytes. The
output loop is the one of the counter mode standard.
-/

set_option autoImplicit false

namespace CryptoPrimitives.HmacStandard

open CtrStandard (leftmost whileShort)

structure State where
  k : Bytes
  v : Bytes
  deriving DecidableEq, Repr

section

variable (H : Bytes → Bytes → Bytes)

def update (provided : Bytes) (s : State) : State :=
  let k := H s.k (s.v ++ [0x00] ++ provided)
  let v := H k s.v
  if provided = [] then ⟨k, v⟩
  else
    let k := H k (v ++ [0x01] ++ provided)
    ⟨k, H k v⟩

def instantiate (outLen : Nat) (entropy nonce personalization : Bytes) : State :=
  update H (entropy ++ nonce ++ personalization)
    ⟨Bytes.zeros outLen, List.replicate outLen 0x01⟩

def reseed (entropy additional : Bytes) (s : State) : State := update H (entropy ++ additional) s

def outputRound (k v : Bytes) : Bytes × Bytes := (H k v, H k v)

def generate (length : Nat) (additional : Bytes) (s : State) : Bytes × State :=
  let s := if additional = [] then s else update H additional s
  let drawn := whileShort (outputRound H s.k) length s.v
  (leftmost length drawn.1, update H additional ⟨s.k, drawn.2⟩)

def generateEach (additional : Bytes) : List Nat → State → Bytes × State
  | [], s => ([], s)
  | length :: lengths, s =>
    let first := generate H length additional s
    let rest := generateEach additional lengths first.2
    (first.1 ++ rest.1, rest.2)

def machine : DrbgCall → State → Bytes × State
  | .reseed entropy additional, s => ([], reseed H entropy (additional.getD []) s)
  | .generate length additional, s =>
    generateEach H (additional.getD []) (Drbg.callLengths length) s

end

/-! ## Lengths -/

structure State.Sized (outLen : Nat) (s : State) : Prop where
  k_length : s.k.length = outLen
  v_length : s.v.length = outLen

variable {H : Bytes → Bytes → Bytes} {outLen : Nat}

theorem sized_update (hH : ∀ key message, (H key message).length = outLen) (provided : Bytes)
    (s : State) : (update H provided s).Sized outLen := by
  unfold update
  dsimp only
  split <;> exact ⟨hH _ _, hH _ _⟩

theorem sized_generateEach (hH : ∀ key message, (H key message).length = outLen)
    (additional : Bytes) (lengths : List Nat) (s : State) (hs : s.Sized outLen) :
    (generateEach H additional lengths s).2.Sized outLen := by
  induction lengths generalizing s with
  | nil => exact hs
  | cons length lengths ih => exact ih _ (sized_update hH _ _)

/-- Each request brings so many bytes. -/
theorem length_generateEach (hpos : 0 < outLen)
    (hH : ∀ key message, (H key message).length = outLen) (additional : Bytes)
    (lengths : List Nat) (s : State) :
    (generateEach H additional lengths s).1.length = lengths.sum := by
  have hround : ∀ k v, (outputRound H k v).1.length = outLen := fun k v => hH k v
  induction lengths generalizing s with
  | nil => rfl
  | cons length lengths ih =>
    have hfirst : (generate H length additional s).1.length = length := by
      unfold generate
      dsimp only
      rw [CtrStandard.whileShort_blocks _ hpos (hround _), leftmost, List.length_take,
        CtrStandard.length_rounds _ (hround _)]
      exact Nat.min_eq_left (CtrStandard.le_ceilDiv_mul length outLen hpos)
    rw [generateEach, List.length_append, hfirst, ih, List.sum_cons]

end CryptoPrimitives.HmacStandard
