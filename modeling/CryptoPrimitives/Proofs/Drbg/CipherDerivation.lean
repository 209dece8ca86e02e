import CryptoPrimitives.Proofs.Drbg.Ctr

/-!
# The derivation function on a cipher context

The derivation function sets two keys and encrypts every block on a context that could refuse
either. It sets keys of the cipher's length and hands out whole blocks, so it is refused only for
the length of its input, before the first key.
-/

set_option autoImplicit false

namespace CryptoPrimitives

theorem Bytes.chunks_whole (n : Nat) (data : Bytes) (hdata : data.length = 16 * n) :
    ∀ block ∈ Bytes.chunks 16 data, block.length = 16 := by
  induction n generalizing data with
  | zero =>
    have hnil : data = [] := List.eq_nil_of_length_eq_zero hdata
    subst hnil
    simp [Bytes.chunks, Bytes.chunksFrom]
  | succ n ih =>
    have hblock : (data.take 16).length = 16 := by
      rw [List.length_take]
      omega
    have hrest : (data.drop 16).length = 16 * n := by
      rw [List.length_drop]
      omega
    rw [← List.take_append_drop 16 data, Bytes.chunks_append 16 _ _ (by omega) hblock]
    intro block hmem
    rcases List.mem_cons.mp hmem with rfl | hmem
    · exact hblock
    · exact ih _ hrest block hmem

namespace CipherContext

variable {c : BlockCipher} {schedule : Schedule}

def chain (cipher : CipherContext c) : Bytes → List Bytes → Except Fault Bytes
  | chaining, [] => .ok chaining
  | chaining, block :: blocks => do
    let next ← cipher.encryptBlock (Bytes.xor chaining block)
    cipher.chain next blocks

def condense (cipher : CipherContext c) (s : Bytes) : List Nat → Except Fault Bytes
  | [] => .ok []
  | i :: is => do
    let first ← cipher.chain (Bytes.zeros blockLen)
      ((Bytes.be32 i.toUInt32 ++ Bytes.zeros 12) :: Bytes.chunks blockLen s)
    let rest ← cipher.condense s is
    return first ++ rest

def drawOut (cipher : CipherContext c) : Nat → Bytes → Except Fault Bytes
  | 0, _ => .ok []
  | blocks + 1, x => do
    let y ← cipher.encryptBlock x
    let rest ← cipher.drawOut blocks y
    return y ++ rest

def expandSeed (fixed : CipherContext c) (temp : Bytes) (outputLen : Nat) : Except Fault Bytes := do
  let drawing ← fixed.setKey (temp.take c.keyLen)
  let out ← drawing.drawOut (ceilDiv outputLen blockLen)
    ((temp.drop c.keyLen).take blockLen)
  return out.take outputLen

def derive (c : BlockCipher) (parts : List Bytes) (outputLen : Nat) : Except Fault Bytes :=
  let input := parts.flatten
  if UInt32.size ≤ input.length ∨ UInt32.size ≤ outputLen then .error .invalidInput
  else do
    let fixed ← (unkeyed c).setKey ((List.range c.keyLen).map Nat.toUInt8)
    let temp ← fixed.condense (BlockCipher.derivationInput input outputLen)
      (List.range (ceilDiv (c.keyLen + blockLen) blockLen))
    fixed.expandSeed temp outputLen

theorem encryptBlock_keyed {block : Bytes} (h : block.length = 16) :
    (CipherContext.mk (c := c) (some schedule)).encryptBlock block =
      .ok (c.run schedule block) :=
  if_neg fun hne => hne h

theorem setKey_fitting (context : CipherContext c) (key : Bytes)
    (h : key.length = c.keyLen) :
    context.setKey key = .ok ⟨some (c.expand key)⟩ :=
  if_pos h

theorem chain_keyed (blocks : List Bytes) (chaining : Bytes) (hc : chaining.length = 16)
    (hblocks : ∀ block ∈ blocks, block.length = 16) :
    (CipherContext.mk (c := c) (some schedule)).chain chaining blocks =
      .ok (blocks.foldl (fun chaining block => c.run schedule (Bytes.xor chaining block))
        chaining) := by
  induction blocks generalizing chaining with
  | nil => rfl
  | cons block blocks ih =>
    have hx : (Bytes.xor chaining block).length = 16 := by
      rw [Bytes.length_xor, hc, hblocks block (by simp)]
      rfl
    rw [chain, encryptBlock_keyed hx]
    exact ih _ (c.length_run _ _) fun b hb => hblocks b (by simp [hb])

theorem length_chain (blocks : List Bytes) (chaining : Bytes) (hc : chaining.length = 16) :
    (blocks.foldl (fun chaining block => c.run schedule (Bytes.xor chaining block))
      chaining).length = 16 := by
  induction blocks generalizing chaining with
  | nil => exact hc
  | cons block blocks ih => exact ih _ (c.length_run _ _)

theorem condense_keyed (s : Bytes) (n : Nat) (hs : s.length = 16 * n) (is : List Nat) :
    (CipherContext.mk (c := c) (some schedule)).condense s is =
      .ok (is.flatMap fun i => c.chain schedule
        ((Bytes.be32 i.toUInt32 ++ Bytes.zeros 12) :: Bytes.chunks blockLen s)) := by
  induction is with
  | nil => rfl
  | cons i is ih =>
    have hblocks : ∀ block ∈ (Bytes.be32 i.toUInt32 ++ Bytes.zeros 12) :: Bytes.chunks blockLen s,
        block.length = 16 := by
      intro block hblock
      rcases List.mem_cons.mp hblock with rfl | hblock
      · rfl
      · exact Bytes.chunks_whole n s hs block hblock
    rw [condense, chain_keyed _ (Bytes.zeros blockLen) (Bytes.length_zeros _) hblocks, ih]
    rfl

theorem length_condense (c : BlockCipher) (schedule : Schedule) (s : Bytes) (is : List Nat) :
    (is.flatMap fun i => c.chain schedule
      ((Bytes.be32 i.toUInt32 ++ Bytes.zeros 12) :: Bytes.chunks blockLen s)).length =
      16 * is.length := by
  induction is with
  | nil => rfl
  | cons i is ih =>
    have hfirst : (c.chain schedule
        ((Bytes.be32 i.toUInt32 ++ Bytes.zeros 12) :: Bytes.chunks blockLen s)).length = 16 :=
      length_chain _ _ (Bytes.length_zeros _)
    rw [List.flatMap_cons, List.length_append, hfirst, ih, List.length_cons]
    omega

theorem drawOut_keyed (n : Nat) (x : Bytes) (hx : x.length = 16) :
    (CipherContext.mk (c := c) (some schedule)).drawOut n x =
      .ok (c.drawOut schedule n x) := by
  induction n generalizing x with
  | zero => rfl
  | succ n ih =>
    rw [drawOut, encryptBlock_keyed hx]
    show (do
      let rest ← (CipherContext.mk (c := c) (some schedule)).drawOut n (c.run schedule x)
      Except.ok _) = _
    rw [ih _ (c.length_run _ _)]
    rfl

theorem expandSeed_keyed (temp : Bytes) (outputLen : Nat)
    (ht : c.keyLen + 16 ≤ temp.length) :
    (CipherContext.mk (c := c) (some schedule)).expandSeed temp outputLen =
      .ok ((c.drawOut (c.expand (temp.take c.keyLen))
        (ceilDiv outputLen blockLen) ((temp.drop c.keyLen).take blockLen)).take outputLen) := by
  have hkey : (temp.take c.keyLen).length = c.keyLen := by
    rw [List.length_take]
    omega
  have hx : ((temp.drop c.keyLen).take blockLen).length = 16 := by
    rw [List.length_take, List.length_drop, blockLen]
    omega
  have hset := setKey_fitting (CipherContext.mk (c := c) (some schedule)) _ hkey
  simp only [expandSeed, hset, drawOut_keyed _ _ hx, bind, Except.bind]
  rfl

/-- Every key that is set has the length of the cipher's, and every block that of a block. -/
theorem derive_eq (c : BlockCipher) (parts : List Bytes) (outputLen : Nat) :
    derive c parts outputLen = c.derive parts outputLen := by
  unfold derive BlockCipher.derive
  by_cases hlong : UInt32.size ≤ parts.flatten.length ∨ UInt32.size ≤ outputLen
  · simp only [hlong, if_true]
  simp only [hlong, if_false]
  obtain ⟨n, hn⟩ := BlockCipher.length_derivationInput parts.flatten outputLen
  have hset := setKey_fitting (unkeyed c) ((List.range c.keyLen).map Nat.toUInt8)
    (by rw [List.length_map, List.length_range])
  have hlen := length_condense c (c.expand ((List.range c.keyLen).map Nat.toUInt8))
    (BlockCipher.derivationInput parts.flatten outputLen)
    (List.range (ceilDiv (c.keyLen + blockLen) blockLen))
  have hlong : c.keyLen + 16 ≤ 16 * (List.range (ceilDiv (c.keyLen + blockLen)
      blockLen)).length := by
    rw [List.length_range]
    simp only [ceilDiv, blockLen]
    omega
  rw [← hlen] at hlong
  rw [hset]
  show ((CipherContext.mk (c := c) (some _)).condense _ _ >>= fun temp => _) = _
  rw [condense_keyed _ n hn]
  exact expandSeed_keyed _ outputLen hlong

end CipherContext

end CryptoPrimitives
