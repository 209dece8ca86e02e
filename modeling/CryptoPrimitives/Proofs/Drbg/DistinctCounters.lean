import CryptoPrimitives.Proofs.Cipher.Injective
import CryptoPrimitives.Proofs.Drbg.Ctr
import CryptoPrimitives.Recorded
import Mathlib.Data.List.Nodup

/-!
# No counter block twice under one key

A call of counter mode encrypts counter blocks in a row: those of the output and, under the same
key, those that the next key and counter block are made of. The calls are noted down here with
every block that is given to the cipher, and the blocks are numbers in a row, too few of them for
the counter to come round.
-/

set_option autoImplicit false

namespace CryptoPrimitives

open CtrStandard

/-! ## Numbers in a row -/

namespace CtrStandard

def counters (first count : Nat) : List Bytes :=
  (List.range count).map fun i => numeral 16 (first + i)

theorem length_counters (first count : Nat) : (counters first count).length = count := by
  rw [counters, List.length_map, List.length_range]

theorem counters_succ (first count : Nat) :
    counters first (count + 1) = numeral 16 first :: counters (first + 1) count := by
  rw [counters, List.range_succ_eq_map, List.map_cons, List.map_map, counters]
  simp only [Function.comp_def, Nat.add_zero, Nat.succ_eq_add_one, Nat.add_assoc,
    Nat.add_comm 1]

theorem counters_add (first m n : Nat) :
    counters first (m + n) = counters first m ++ counters (first + m) n := by
  rw [counters, List.range_add, List.map_append, List.map_map]
  simp only [counters, Function.comp_def, Nat.add_assoc]

theorem numeral_add_inj {first i j : Nat} (hi : i < 2 ^ 128) (hj : j < 2 ^ 128)
    (h : numeral 16 (first + i) = numeral 16 (first + j)) : i = j := by
  have hvalues := congrArg Bytes.value h
  have hpow : (256 ^ 16 : Nat) = 2 ^ 128 := by norm_num
  rw [value_numeral, value_numeral, hpow] at hvalues
  omega

theorem counters_nodup (first : Nat) {count : Nat} (hcount : count ≤ 2 ^ 128) :
    (counters first count).Nodup := by
  refine List.Nodup.map_on (fun i hi j hj hij => ?_) List.nodup_range
  have hi := List.mem_range.mp hi
  have hj := List.mem_range.mp hj
  exact numeral_add_inj (by omega) (by omega) hij

end CtrStandard

/-! ## Blocks of bytes -/

def Bytes.block (bytes : Bytes) (i : Nat) : Bytes := (bytes.drop (16 * i)).take 16

theorem Bytes.block_take (bytes : Bytes) {length i : Nat} (hi : 16 * (i + 1) ≤ length) :
    Bytes.block (bytes.take length) i = Bytes.block bytes i := by
  rw [Bytes.block, Bytes.block, List.drop_take, List.take_take, Nat.min_eq_left (by omega)]

theorem Bytes.block_flatMap {f : Bytes → Bytes} (hf : ∀ b, (f b).length = 16) {blocks : List Bytes}
    {i : Nat} (hi : i < blocks.length) : Bytes.block (blocks.flatMap f) i = f blocks[i] := by
  induction blocks generalizing i with
  | nil => exact absurd hi (Nat.not_lt_zero i)
  | cons b blocks ih =>
    have hb : (f b).length = 16 := hf b
    rw [List.flatMap_cons]
    cases i with
    | zero => exact List.take_left' hb
    | succ i =>
      have hnext : 16 * (i + 1) = (f b).length + 16 * i := by omega
      rw [Bytes.block, hnext, List.drop_length_add_append]
      exact ih (Nat.lt_of_succ_lt_succ hi)

/-! ## The calls with their encryptions -/

structure Encryption where
  schedule : Schedule
  block : Bytes
  deriving DecidableEq

namespace CtrDrbg

variable {c : BlockCipher}

def keystreamNoted (c : BlockCipher) (schedule : Schedule) :
    Nat → Bytes → Recorded Encryption (Bytes × Bytes)
  | 0, v => return ([], v)
  | blocks + 1, v => do
    let v := nextCounter v
    Recorded.note ⟨schedule, v⟩
    let (rest, last) ← keystreamNoted c schedule blocks v
    return (c.run schedule v ++ rest, last)

def updateNoted (d : CtrDrbg c) (provided : Bytes) : Recorded Encryption (CtrDrbg c) := do
  let (stream, _) ← keystreamNoted c d.schedule (ceilDiv (seedLen c) blockLen) d.v
  let temp := Bytes.xor (stream.take (seedLen c)) provided
  let key := temp.take c.keyLen
  return { d with key, v := temp.drop c.keyLen, schedule := c.expand key }

def mixNoted (d : CtrDrbg c) (additional conditioned : Bytes) : Recorded Encryption (CtrDrbg c) :=
  if additional.isEmpty then return d else d.updateNoted conditioned

def drawNoted (d : CtrDrbg c) (conditioned : Bytes) (length : Nat) :
    Recorded Encryption (Bytes × CtrDrbg c) := do
  let (out, v) ← keystreamNoted c d.schedule (ceilDiv length blockLen) d.v
  let drawn : CtrDrbg c := { d with v }
  let next ← drawn.updateNoted conditioned
  return (out.take length, { next with counter := next.counter + 1 })

def generateCallNoted (d : CtrDrbg c) (length : Nat) (additional : Bytes) :
    Recorded Encryption (Except Fault (Bytes × CtrDrbg c)) :=
  match d.additionalMaterial additional with
  | .error e => return .error e
  | .ok conditioned => do
    let d ← d.mixNoted additional conditioned
    let drawn ← d.drawNoted conditioned length
    return .ok drawn

theorem keystreamNoted_val (schedule : Schedule) (n : Nat) (v : Bytes) :
    (keystreamNoted c schedule n v).val = keystream c schedule n v := by
  induction n generalizing v with
  | zero => rfl
  | succ n ih =>
    rw [keystreamNoted, keystream, ← ih]
    rfl

theorem updateNoted_val (d : CtrDrbg c) (provided : Bytes) :
    (d.updateNoted provided).val = d.update provided := by
  rw [update, ← keystreamNoted_val]
  rfl

theorem mixNoted_val (d : CtrDrbg c) (additional conditioned : Bytes) :
    (d.mixNoted additional conditioned).val =
      if additional.isEmpty then d else d.update conditioned := by
  rw [mixNoted]
  split
  · rfl
  · exact d.updateNoted_val conditioned

theorem drawNoted_val (d : CtrDrbg c) (conditioned : Bytes) (length : Nat) :
    (d.drawNoted conditioned length).val = d.draw conditioned length := by
  simp only [drawNoted, Recorded.val_bind, keystreamNoted_val, updateNoted_val]
  rfl

theorem generateCallNoted_val (d : CtrDrbg c) (length : Nat) (additional : Bytes) :
    (d.generateCallNoted length additional).val = d.generateCall length additional := by
  unfold generateCallNoted
  cases hm : d.additionalMaterial additional with
  | error e =>
    rw [generateCall_error hm]
    rfl
  | ok m =>
    rw [generateCall_draw hm, ← mixNoted_val, ← drawNoted_val]
    rfl

/-! ## What is encrypted -/

theorem keystream_numeral (schedule : Schedule) (n k : Nat) :
    keystream c schedule n (numeral 16 k) =
      ((counters (k + 1) n).flatMap (c.run schedule), numeral 16 (k + n)) := by
  induction n generalizing k with
  | zero => rfl
  | succ n ih =>
    have htotal : k + 1 + n = k + (n + 1) := by omega
    rw [keystream, nextCounter_numeral, ih, counters_succ, List.flatMap_cons, htotal]

theorem keystreamNoted_succ (schedule : Schedule) (n : Nat) (v : Bytes) :
    (keystreamNoted c schedule (n + 1) v).entries =
      ⟨schedule, nextCounter v⟩ :: (keystreamNoted c schedule n (nextCounter v)).entries :=
  congrArg (_ :: ·) (List.append_nil _)

theorem keystreamNoted_entries (schedule : Schedule) (n k : Nat) :
    (keystreamNoted c schedule n (numeral 16 k)).entries =
      (counters (k + 1) n).map (Encryption.mk schedule) := by
  induction n generalizing k with
  | zero => rfl
  | succ n ih =>
    rw [keystreamNoted_succ, nextCounter_numeral, ih, counters_succ, List.map_cons]

theorem updateNoted_entries {d : CtrDrbg c} {k : Nat} (hv : d.v = numeral 16 k)
    (provided : Bytes) :
    (d.updateNoted provided).entries =
      (counters (k + 1) (ceilDiv (seedLen c) 16)).map (Encryption.mk d.schedule) := by
  rw [← keystreamNoted_entries (c := c), ← hv]
  exact List.append_nil _

theorem drawNoted_entries {d : CtrDrbg c} {k : Nat} (hv : d.v = numeral 16 k)
    (conditioned : Bytes) (length : Nat) :
    (d.drawNoted conditioned length).entries =
      (counters (k + 1) (ceilDiv length 16 + ceilDiv (seedLen c) 16)).map
        (Encryption.mk d.schedule) := by
  have hlast : (keystreamNoted c d.schedule (ceilDiv length blockLen) d.v).val.2 =
      numeral 16 (k + ceilDiv length 16) := by
    rw [keystreamNoted_val, hv, keystream_numeral]
    rfl
  have hclosing := updateNoted_entries (c := c) (d := { d with v := _ }) hlast conditioned
  rw [counters_add, List.map_append, Nat.add_right_comm k, ← hclosing,
    ← keystreamNoted_entries (c := c), ← hv]
  exact congrArg (_ ++ ·) (List.append_nil _)

/-- Key and counter block of the next state, in one. -/
theorem update_made {d : CtrDrbg c} {k : Nat} (hv : d.v = numeral 16 k) (provided : Bytes) :
    (d.update provided).key ++ (d.update provided).v =
      Bytes.xor (((counters (k + 1) (ceilDiv (seedLen c) 16)).flatMap (c.run d.schedule)).take
        (seedLen c)) provided := by
  have hstream := keystream_numeral (c := c) d.schedule (ceilDiv (seedLen c) blockLen) k
  rw [← hv] at hstream
  rw [update, hstream]
  exact List.take_append_drop _ _

theorem draw_made {d : CtrDrbg c} {k : Nat} (hv : d.v = numeral 16 k) (conditioned : Bytes)
    (length : Nat) :
    (d.draw conditioned length).1 =
        ((counters (k + 1) (ceilDiv length 16)).flatMap (c.run d.schedule)).take length ∧
      (d.draw conditioned length).2.key ++ (d.draw conditioned length).2.v =
        Bytes.xor (((counters (k + ceilDiv length 16 + 1) (ceilDiv (seedLen c) 16)).flatMap
          (c.run d.schedule)).take (seedLen c)) conditioned := by
  have hstream := keystream_numeral (c := c) d.schedule (ceilDiv length blockLen) k
  rw [← hv] at hstream
  have hlast : (keystream c d.schedule (ceilDiv length blockLen) d.v).2 =
      numeral 16 (k + ceilDiv length blockLen) := by
    rw [hstream]
  refine ⟨?_, update_made (c := c) (d := { d with v := _ }) hlast conditioned⟩
  rw [draw, hstream]
  rfl

theorem mixNoted_entries {d : CtrDrbg c} {k : Nat} (hv : d.v = numeral 16 k)
    (additional conditioned : Bytes) :
    (d.mixNoted additional conditioned).entries =
      (if additional = [] then [] else counters (k + 1) (ceilDiv (seedLen c) 16)).map
        (Encryption.mk d.schedule) := by
  cases additional with
  | nil => rfl
  | cons b bs => exact updateNoted_entries hv conditioned

theorem generateCallNoted_ok {d : CtrDrbg c} {additional m : Bytes}
    (hm : d.additionalMaterial additional = .ok m) (length : Nat) :
    (d.generateCallNoted length additional).entries =
      (d.mixNoted additional m).entries ++
        ((if additional.isEmpty then d else d.update m).drawNoted m length).entries := by
  rw [generateCallNoted, hm, ← mixNoted_val]
  exact congrArg (_ ++ ·) (List.append_nil _)

theorem generateCallNoted_error {d : CtrDrbg c} {additional : Bytes} {e : Fault}
    (hm : d.additionalMaterial additional = .error e) (length : Nat) :
    d.generateCallNoted length additional = pure (.error e) := by
  rw [generateCallNoted, hm]

theorem Keyed.v_eq {d : CtrDrbg c} (hd : Keyed d) : d.v = numeral 16 (Bytes.value d.v) := by
  have hvalue := numeral_value d.v
  rw [hd.v_length] at hvalue
  exact hvalue.symm

/-- What a call has made of its encryptions. Under the key before, it has encrypted the counters of
the update that mixes additional input in; under the key of the output, the counters from `first`
on: those of the output, and then those of the next key and counter block, which also take up the
conditioned additional input. -/
structure CallMade (d : CtrDrbg c) (length : Nat) (additional key : Bytes) (first : Nat)
    (entries : List Encryption) (out : Bytes) (next : CtrDrbg c) : Prop where
  key_length : key.length = c.keyLen
  unmixed : additional = [] → key = d.key ∧ first = Bytes.value d.v + 1
  encrypted : entries =
    (if additional = [] then []
      else counters (Bytes.value d.v + 1) (ceilDiv (seedLen c) 16)).map
        (Encryption.mk (c.expand d.key)) ++
    (counters first (ceilDiv length 16 + ceilDiv (seedLen c) 16)).map
      (Encryption.mk (c.expand key))
  output : out = ((counters first (ceilDiv length 16)).flatMap (c.encrypt key)).take length
  state : ∃ material, d.additionalMaterial additional = .ok material ∧
    material.length = seedLen c ∧
    (additional ≠ [] →
      key = (d.update material).key ∧ first = Bytes.value (d.update material).v + 1) ∧
    next.key ++ next.v = Bytes.xor
      (((counters (first + ceilDiv length 16) (ceilDiv (seedLen c) 16)).flatMap
        (c.encrypt key)).take (seedLen c)) material

theorem Keyed.call_made (hkeyLen : c.keyLen ≤ 32) {d : CtrDrbg c} (hd : Keyed d)
    {length : Nat} {additional out : Bytes} {next : CtrDrbg c}
    (hok : d.generateCall length additional = .ok (out, next)) :
    ∃ key first, CallMade d length additional key first
      (d.generateCallNoted length additional).entries out next := by
  cases hm : d.additionalMaterial additional with
  | error e => cases hok.symm.trans (generateCall_error hm length)
  | ok m =>
    obtain ⟨-, hlen⟩ := additionalMaterial_ok hkeyLen hm
    obtain ⟨hkeyed, -, hstate⟩ := hd.mixed hlen additional
    have hentries := generateCallNoted_ok hm length
    have hdrawn := Except.ok.inj (hok.symm.trans (generateCall_draw hm length))
    rw [mixNoted_entries hd.v_eq, hd.schedule] at hentries
    generalize hmixed : (if additional.isEmpty then d else d.update m) = mixed at *
    rw [drawNoted_entries hkeyed.v_eq, hkeyed.schedule] at hentries
    obtain ⟨hout, hnext⟩ := draw_made hkeyed.v_eq m length
    rw [hkeyed.schedule, ← hdrawn] at hout hnext
    refine ⟨mixed.key, Bytes.value mixed.v + 1, hkeyed.key_length, fun hnone => ?_, hentries,
      hout, m, hm, hlen, fun hsome => ?_, ?_⟩
    · rw [if_pos hnone] at hstate
      exact ⟨congrArg State.key hstate, congrArg (Bytes.value ·.v + 1) hstate⟩
    · rw [if_neg (mt List.isEmpty_iff.mp hsome)] at hmixed
      rw [hmixed]
      exact ⟨rfl, rfl⟩
    · rw [Nat.add_right_comm]
      exact hnext

/-! ## Nothing encrypted twice -/

theorem encrypt_numeral_inj (hinj : c.Injective) {key : Bytes} (hkey : key.length = c.keyLen)
    {first i j : Nat} (hi : i < 2 ^ 128) (hj : j < 2 ^ 128)
    (h : c.encrypt key (numeral 16 (first + i)) = c.encrypt key (numeral 16 (first + j))) :
    i = j :=
  numeral_add_inj hi hj (hinj hkey (length_numeral 16 _) (length_numeral 16 _) h)

theorem block_drawn (key : Bytes) (first : Nat) {length i : Nat} (hi : 16 * (i + 1) ≤ length) :
    i < ceilDiv length 16 ∧
      Bytes.block (((counters first (ceilDiv length 16)).flatMap (c.encrypt key)).take length) i =
        c.encrypt key (numeral 16 (first + i)) := by
  have hwhole : i < ceilDiv length 16 := by
    have := le_ceilDiv_mul length 16 (by decide)
    omega
  have hcount : i < (counters first (ceilDiv length 16)).length := by
    rw [length_counters]
    exact hwhole
  refine ⟨hwhole, ?_⟩
  rw [Bytes.block_take _ hi, Bytes.block_flatMap (c.length_encrypt key) hcount]
  simp only [counters, List.getElem_map, List.getElem_range]

theorem CallMade.blocks_distinct (hinj : c.Injective) {d next : CtrDrbg c} {length first : Nat}
    {additional key out : Bytes} {entries : List Encryption}
    (hmade : CallMade d length additional key first entries out next)
    (hfits : ceilDiv length 16 + ceilDiv (seedLen c) 16 ≤ 2 ^ 128) :
    (∀ i j, i < j → 16 * (j + 1) ≤ length → Bytes.block out i ≠ Bytes.block out j) ∧
      ∀ i, 16 * (i + 1) ≤ length → Bytes.block out i ∉
        (counters (first + ceilDiv length 16) (ceilDiv (seedLen c) 16)).map (c.encrypt key) := by
  have hblock : ∀ i, 16 * (i + 1) ≤ length → i < ceilDiv length 16 ∧
      Bytes.block out i = c.encrypt key (numeral 16 (first + i)) := by
    intro i hi
    rw [hmade.output]
    exact block_drawn key first hi
  refine ⟨fun i j hij hj hsame => ?_, fun i hi hmem => ?_⟩
  · obtain ⟨hi', hiblock⟩ := hblock i (by omega)
    obtain ⟨hj', hjblock⟩ := hblock j hj
    have hcounters := encrypt_numeral_inj hinj hmade.key_length (by omega) (by omega)
      (hiblock.symm.trans (hsame.trans hjblock))
    exact Nat.ne_of_lt hij hcounters
  · obtain ⟨hi', hiblock⟩ := hblock i hi
    obtain ⟨counter, hcounter, hencrypted⟩ := List.mem_map.mp hmem
    obtain ⟨j, hj, rfl⟩ := List.mem_map.mp hcounter
    have hj := List.mem_range.mp hj
    rw [Nat.add_assoc] at hencrypted
    have hcounters := encrypt_numeral_inj hinj hmade.key_length (by omega) (by omega)
      (hiblock.symm.trans hencrypted.symm)
    omega

/-- So few blocks are encrypted in one call that the counter cannot come round. -/
theorem call_fits (hkey : c.keyLen ≤ 32) {length : Nat} (hlength : length ≤ Drbg.maxRequest) :
    ceilDiv length 16 + ceilDiv (seedLen c) 16 ≤ 2 ^ 128 := by
  simp only [Drbg.maxRequest, ceilDiv, seedLen, blockLen] at hlength ⊢
  omega

/-- Under the key that a call draws its output with, the counters of the output and of the blocks
that the next key and counter block are made of are all different; so are those of the update that
mixes additional input in, under the key before. Where the cipher can be undone, no whole block of
the output comes twice, and none is one of those that make the next state. -/
theorem counters_never_repeat (hkeyLen : c.keyLen ≤ 32) {d : CtrDrbg c} (hd : Keyed d)
    {length : Nat} (hlength : length ≤ Drbg.maxRequest) (additional : Bytes) :
    let call := d.generateCallNoted length additional
    let drawn := ceilDiv length 16
    let made := ceilDiv (seedLen c) 16
    call.val = d.generateCall length additional ∧
    (∀ e, call.val = .error e → call.entries = []) ∧
    ∀ out next, call.val = .ok (out, next) → ∃ key first,
      CallMade d length additional key first call.entries out next ∧
      (counters (Bytes.value d.v + 1) made).Nodup ∧
      (counters first (drawn + made)).Nodup ∧
      (c.Injective →
        (∀ i j, i < j → 16 * (j + 1) ≤ length → Bytes.block out i ≠ Bytes.block out j) ∧
        ∀ i, 16 * (i + 1) ≤ length →
          Bytes.block out i ∉ (counters (first + drawn) made).map (c.encrypt key)) := by
  intro call drawn made
  have hval : call.val = _ := d.generateCallNoted_val length additional
  have hfits : drawn + made ≤ 2 ^ 128 := call_fits hkeyLen hlength
  refine ⟨hval, fun e he => ?_, fun out next hok => ?_⟩
  · cases hm : d.additionalMaterial additional with
    | error e' => exact congrArg Recorded.entries (generateCallNoted_error hm length)
    | ok m => cases (he.symm.trans hval).trans (generateCall_draw hm length)
  · obtain ⟨key, first, hmade⟩ := hd.call_made hkeyLen (hval.symm.trans hok)
    exact ⟨key, first, hmade, counters_nodup _ (by omega), counters_nodup _ hfits,
      fun hinj => hmade.blocks_distinct hinj hfits⟩

/-- A generator over the cipher itself, with additional input: three blocks are encrypted under
the key before, and three of output and three more under the next. -/
theorem counters_never_repeat_mixed :
    ∃ d out next, create CipherAlg.aes256.blockCipher false true 5 (List.replicate 48 7) [] [] =
        .ok d ∧
      (d.generateCallNoted 40 [9]).val = .ok (out, next) ∧
      (d.generateCallNoted 40 [9]).entries.length = 9 ∧
      Bytes.block out 0 ≠ Bytes.block out 1 := by
  have hadmits : Admits CipherAlg.aes256.blockCipher false (List.replicate 48 7) [[], []] [] :=
    ⟨rfl, Nat.zero_le _⟩
  obtain ⟨d, hcreate, hdirect⟩ : ∃ d, create CipherAlg.aes256.blockCipher false true 5
      (List.replicate 48 7) [] [] = .ok d ∧ d.useDf = false :=
    ⟨_, create_admitted (by decide) _ _ _ _ _ _ (by decide) hadmits, rfl⟩
  have hd := (create_refines (by decide) _ _ _ _ _ _ _ hcreate).1
  obtain ⟨hval, -, hcall⟩ := counters_never_repeat (by decide) hd
    (show 40 ≤ Drbg.maxRequest by decide) [9]
  have hmaterial : d.additionalMaterial [9] =
      .ok (padded CipherAlg.aes256.blockCipher.keyLen [9]) := by
    rw [additionalMaterial, hdirect]
    exact toSeedLength_padded [9] (by decide)
  have hok := hval.trans (generateCall_draw hmaterial 40)
  obtain ⟨key, first, hmade, -, -, hdistinct⟩ := hcall _ _ hok
  refine ⟨d, _, _, hcreate, hok, ?_, ?_⟩
  · rw [hmade.encrypted, List.length_append, List.length_map, List.length_map, if_neg (by decide),
      length_counters, length_counters]
    rfl
  · exact (hdistinct (CipherAlg.blockCipher_injective .aes256)).1 0 1 (by decide) (by decide)

end CtrDrbg

end CryptoPrimitives
