import CryptoPrimitives.Proofs.Drbg.Counter

/-!
# The derivation function computes the standard's

Only the concatenation of the parts matters, and every length below 2^32 is accepted.
-/

set_option autoImplicit false

namespace CryptoPrimitives

/-! ## Blocks -/

namespace Bytes

theorem chunksFrom_bound (size bound bound' : Nat) (bytes : Bytes) (hsize : 0 < size)
    (hb : bytes.length ≤ bound) (hb' : bytes.length ≤ bound') :
    chunksFrom size bound bytes = chunksFrom size bound' bytes := by
  induction bound generalizing bound' bytes with
  | zero =>
    have hnil : bytes = [] := List.eq_nil_of_length_eq_zero (Nat.le_zero.mp hb)
    subst hnil
    cases bound' <;> rfl
  | succ bound ih =>
    cases bytes with
    | nil => cases bound' <;> rfl
    | cons b bytes =>
      cases bound' with
      | zero => cases hb'
      | succ bound' =>
        have hrest : ((b :: bytes).drop size).length ≤ bytes.length := by
          rw [List.length_drop, List.length_cons]
          omega
        rw [List.length_cons] at hb hb'
        rw [chunksFrom, chunksFrom, ih bound' _ (by omega) (by omega)]

theorem chunks_append (size : Nat) (block rest : Bytes) (hsize : 0 < size)
    (hblock : block.length = size) : chunks size (block ++ rest) = block :: chunks size rest := by
  cases block with
  | nil =>
    rw [List.length_nil] at hblock
    omega
  | cons b block =>
    have htake : (b :: (block ++ rest)).take size = b :: block := List.take_left' hblock
    have hdrop : (b :: (block ++ rest)).drop size = rest := List.drop_left' hblock
    rw [chunks, chunks, List.cons_append, List.length_cons, chunksFrom, htake, hdrop]
    congr 1
    apply chunksFrom_bound size _ _ rest hsize
    · rw [List.length_append]
      omega
    · exact Nat.le_refl _

end Bytes

namespace CtrStandard

theorem blocks_append (block rest : Bytes) (hblock : block.length = 16) :
    blocks (block ++ rest) = block :: blocks rest := by
  have hcount : (block ++ rest).length / 16 = rest.length / 16 + 1 := by
    rw [List.length_append, hblock]
    omega
  rw [blocks, hcount, List.range_succ_eq_map, List.map_cons, List.map_map, blocks]
  congr 1
  · exact List.take_left' hblock
  · apply List.map_congr_left
    intro i _
    have hdrop : (block ++ rest).drop (16 * (i + 1)) = rest.drop (16 * i) := by
      rw [Nat.mul_add, Nat.add_comm, ← List.drop_drop, List.drop_left' hblock]
    simp only [Function.comp, hdrop]

theorem blocks_chunks (n : Nat) (data : Bytes) (hdata : data.length = 16 * n) :
    blocks data = Bytes.chunks 16 data := by
  induction n generalizing data with
  | zero =>
    have hnil : data = [] := List.eq_nil_of_length_eq_zero hdata
    subst hnil
    rfl
  | succ n ih =>
    have hblock : (data.take 16).length = 16 := by
      rw [List.length_take]
      omega
    have hrest : (data.drop 16).length = 16 * n := by
      rw [List.length_drop]
      omega
    rw [← List.take_append_drop 16 data, blocks_append _ _ hblock,
      Bytes.chunks_append 16 _ _ (by omega) hblock, ih _ hrest]

theorem length_bcc (E : Bytes → Bytes → Bytes) (hE : ∀ key block, (E key block).length = 16)
    (key data : Bytes) : (bcc E key data).length = 16 := by
  rw [bcc]
  rcases List.eq_nil_or_concat (blocks data) with hnil | ⟨earlier, last, hlast⟩
  · rw [hnil]
    exact Bytes.length_zeros 16
  · rw [hlast, List.concat_eq_append, List.foldl_append]
    exact hE _ _

/-- Rounds whose state is their number. -/
theorem rounds_numbered (f : Nat → Bytes) (n k : Nat) :
    (rounds (fun i => (f i, i + 1)) n k).1 = (List.range' k n).flatMap f := by
  induction n generalizing k with
  | zero => rfl
  | succ n ih => rw [rounds, ih, List.range'_succ, List.flatMap_cons]

end CtrStandard

open CtrStandard

namespace BlockCipher

variable (c : BlockCipher)

theorem length_encrypt (key block : Bytes) : (c.encrypt key block).length = 16 :=
  c.length_run _ block

theorem chain_bcc (key iv s : Bytes) (n : Nat) (hiv : iv.length = 16) (hs : s.length = 16 * n) :
    c.chain (c.expand key) (iv :: Bytes.chunks 16 s) = bcc c.encrypt key (iv ++ s) := by
  have hdata : (iv ++ s).length = 16 * (n + 1) := by
    rw [List.length_append, hiv, hs]
    ring
  simp only [bcc, blocks_append iv s hiv, blocks_chunks n s hs, xorBytes_eq]
  rfl

theorem derivationInput_padded (input : Bytes) (outputLen : Nat) :
    derivationInput input outputLen =
      padToBlock 16 (numeral 4 input.length ++ numeral 4 outputLen ++ input ++ [0x80]) := by
  rw [padToBlock_eq _ _ (by omega), derivationInput, be32_numeral, be32_numeral]
  rfl

theorem length_derivationInput (input : Bytes) (outputLen : Nat) :
    ∃ n, (derivationInput input outputLen).length = 16 * n := by
  rw [derivationInput]
  generalize Bytes.be32 input.length.toUInt32 ++ _ ++ _ ++ _ = marked
  refine ⟨(marked.length + (16 - marked.length % 16) % 16) / 16, ?_⟩
  rw [List.length_append, Bytes.length_zeros, blockLen]
  omega

theorem condense_gathered (hkey : c.keyLen ≤ 32) (s : Bytes) (n : Nat) (hs : s.length = 16 * n) :
    c.condense s =
      (whileShort (fun i => (bcc c.encrypt (leftmost c.keyLen ((List.range 32).map Nat.toUInt8))
        (numeral 4 i ++ Bytes.zeros 12 ++ s), i + 1)) (c.keyLen + 16) 0).1 := by
  have hfixed : leftmost c.keyLen ((List.range 32).map Nat.toUInt8) =
      (List.range c.keyLen).map Nat.toUInt8 := by
    rw [leftmost, ← List.map_take, List.take_range, Nat.min_eq_left hkey]
  have hchain : ∀ i, c.chain (c.expand ((List.range c.keyLen).map Nat.toUInt8))
      ((Bytes.be32 i.toUInt32 ++ Bytes.zeros 12) :: Bytes.chunks 16 s) =
        bcc c.encrypt ((List.range c.keyLen).map Nat.toUInt8)
          (numeral 4 i ++ Bytes.zeros 12 ++ s) := by
    intro i
    have hiv : (numeral 4 i ++ Bytes.zeros 12).length = 16 := by
      rw [List.length_append, length_numeral, Bytes.length_zeros]
    rw [be32_numeral, c.chain_bcc _ _ s n hiv hs]
  rw [whileShort_rounds _ fun i => length_bcc _ c.length_encrypt _ _, rounds_numbered, hfixed,
    ← List.range_eq_range']
  simp only [condense, hchain, blockLen]

theorem drawOut_gathered (key : Bytes) (n : Nat) (x : Bytes) :
    c.drawOut (c.expand key) n x =
      (rounds (fun x => (c.encrypt key x, c.encrypt key x)) n x).1 := by
  induction n generalizing x with
  | zero => rfl
  | succ n ih => rw [drawOut, rounds, ih]; rfl

theorem derive_df (hkey : c.keyLen ≤ 32) (parts : List Bytes) (outputLen : Nat)
    (hparts : parts.flatten.length < 2 ^ 32) (hout : outputLen < 2 ^ 32) :
    c.derive parts outputLen = .ok (df c.keyLen c.encrypt parts.flatten outputLen) := by
  have haccepted : ¬(UInt32.size ≤ parts.flatten.length ∨ UInt32.size ≤ outputLen) := by
    simp only [UInt32.size]
    omega
  obtain ⟨n, hn⟩ := length_derivationInput parts.flatten outputLen
  rw [derive, if_neg haccepted, c.condense_gathered hkey _ n hn, derivationInput_padded, df,
    whileShort_rounds (fun x => _) fun x => c.length_encrypt _ x]
  simp only [leftmost, drawOut_gathered, blockLen]

end BlockCipher

end CryptoPrimitives
