import CryptoPrimitives.Proofs.Drbg.Ctr

/-!
# Counter mode generators refine the standard

Whole runs of a generator beside the standard's machine, and the same generator with all its
encryptions made by a cipher context, which could refuse a key or a block and never does.
-/

set_option autoImplicit false

namespace CryptoPrimitives

inductive CtrCall
  | reseed (entropy : Bytes) (additional : Option Bytes)
  | generate (length : Nat) (additional : Option Bytes)
  deriving DecidableEq, Repr

abbrev Transcript := List (CtrCall × Except Fault Bytes)

namespace CtrStandard

inductive Accounts (keyLen : Nat) (E : Bytes → Bytes → Bytes) (useDf : Bool) :
    State → Transcript → State → Prop
  | nil (s : State) : Accounts keyLen E useDf s [] s
  | refused {s s' : State} {rest : Transcript} (call : CtrCall) (e : Fault)
      (h : Accounts keyLen E useDf s rest s') :
      Accounts keyLen E useDf s ((call, .error e) :: rest) s'
  | reseed {s s' : State} {rest : Transcript} (entropy : Bytes) (additional : Option Bytes)
      (h : Accounts keyLen E useDf
        (CtrStandard.reseed keyLen E useDf entropy (additional.getD []) s) rest s') :
      Accounts keyLen E useDf s ((.reseed entropy additional, .ok []) :: rest) s'
  | generate {s s' : State} {rest : Transcript} (length : Nat) (additional : Option Bytes)
      (h : Accounts keyLen E useDf
        (generateEach keyLen E useDf (additional.getD []) (Drbg.callLengths length) s).2 rest s') :
      Accounts keyLen E useDf s
        ((.generate length additional, .ok (generateEach keyLen E useDf (additional.getD [])
          (Drbg.callLengths length) s).1) :: rest) s'

end CtrStandard

namespace CtrDrbg

open CtrStandard

section

variable {c : BlockCipher}

def answer (d : CtrDrbg c) : CtrCall → Except Fault Bytes × CtrDrbg c
  | .reseed entropy additional =>
    ((d.reseed entropy additional).1.map fun _ => [], (d.reseed entropy additional).2)
  | .generate length additional => d.generate length additional

def transcript : List CtrCall → CtrDrbg c → Transcript × CtrDrbg c
  | [], d => ([], d)
  | call :: calls, d =>
    let rest := transcript calls (d.answer call).2
    ((call, (d.answer call).1) :: rest.1, rest.2)

theorem transcript_accounts (hkey : c.keyLen ≤ 32) (calls : List CtrCall) (d : CtrDrbg c)
    (hd : Keyed d) :
    Accounts c.keyLen c.encrypt d.useDf d.state (transcript calls d).1
      (transcript calls d).2.state := by
  induction calls generalizing d with
  | nil => exact .nil _
  | cons call calls ih =>
    cases call with
    | reseed entropy additional =>
      rcases reseed_refines hkey hd entropy additional with
        ⟨d', hanswer, hkeyed, hdf, hstate⟩ | ⟨e, hanswer⟩
      · have hrest := ih d' hkeyed
        rw [hdf, hstate] at hrest
        simp only [transcript, answer, hanswer]
        exact .reseed entropy additional hrest
      · simp only [transcript, answer, hanswer]
        exact .refused _ e (ih d hd)
    | generate length additional =>
      rcases generate_refines hkey hd length additional with
        ⟨d', hanswer, hkeyed, hdf, hstate⟩ | ⟨e, hanswer⟩
      · have hrest := ih d' hkeyed
        rw [hdf, hstate] at hrest
        simp only [transcript, answer, hanswer]
        exact .generate length additional hrest
      · simp only [transcript, answer, hanswer]
        exact .refused _ e (ih d hd)

structure FollowsStandard (d : CtrDrbg c) : Prop where
  reseed : ∀ entropy additional d', d.reseed entropy additional = (.ok (), d') →
    d'.state = CtrStandard.reseed c.keyLen c.encrypt d.useDf entropy (additional.getD []) d.state
  generate : ∀ length additional out d', length ≤ 65536 →
    d.generate length additional = (.ok out, d') →
      (out, d'.state) = CtrStandard.generate c.keyLen c.encrypt d.useDf length
        (additional.getD []) d.state
  reseed_refused : ∀ entropy additional e d', d.reseed entropy additional = (.error e, d') → d' = d
  generate_refused : ∀ length additional e d',
    d.generate length additional = (.error e, d') → d' = d

theorem Keyed.follows_standard (hkey : c.keyLen ≤ 32) {d : CtrDrbg c} (hd : Keyed d) :
    FollowsStandard d := by
  constructor
  · intro entropy additional d' h
    rcases reseed_refines hkey hd entropy additional with ⟨d1, h1, -, -, hstate⟩ | ⟨e, he⟩
    · rw [h1] at h
      cases h
      exact hstate
    · rw [he] at h
      cases h
  · intro length additional out d' hlen h
    rcases generate_refines hkey hd length additional with ⟨d1, h1, -, -, hstate⟩ | ⟨e, he⟩
    · rw [h1] at h
      cases h
      rw [hstate, callLengths_single hlen]
      simp only [generateEach, List.append_nil]
    · rw [he] at h
      cases h
  · intro entropy additional e d' h
    rcases reseed_refines hkey hd entropy additional with ⟨d1, h1, -⟩ | ⟨e', he⟩
    · rw [h1] at h
      cases h
    · rw [he] at h
      cases h
      rfl
  · intro length additional e d' h
    rcases generate_refines hkey hd length additional with ⟨d1, h1, -⟩ | ⟨e', he⟩
    · rw [h1] at h
      cases h
    · rw [he] at h
      cases h
      rfl

end

/-! ## Encryption through a context -/

variable {c : BlockCipher}

def context (d : CtrDrbg c) : CipherContext c := ⟨some d.schedule⟩

def streamThrough (cipher : CipherContext c) : Nat → Bytes → Except Fault (Bytes × Bytes)
  | 0, v => .ok ([], v)
  | blocks + 1, v => do
    let v := nextCounter v
    let block ← cipher.encryptBlock v
    let (rest, last) ← streamThrough cipher blocks v
    return (block ++ rest, last)

def updateThrough (d : CtrDrbg c) (provided : Bytes) :
    Except Fault (CtrDrbg c) := do
  let (stream, _) ← streamThrough d.context (ceilDiv (seedLen c) blockLen) d.v
  let temp := Bytes.xor (stream.take (seedLen c)) provided
  let key := temp.take c.keyLen
  let rekeyed ← d.context.setKey key
  return { d with key, v := temp.drop c.keyLen, schedule := rekeyed.schedule.getD #[] }

def drawThrough (d : CtrDrbg c) (conditioned : Bytes) (length : Nat) :
    Except Fault (Bytes × CtrDrbg c) := do
  let (out, v) ← streamThrough d.context (ceilDiv length blockLen) d.v
  let drawn : CtrDrbg c := { d with v }
  let next ← drawn.updateThrough conditioned
  return (out.take length, { next with counter := next.counter + 1 })

def callThrough (d : CtrDrbg c) (length : Nat) (additional : Bytes) :
    Except Fault (Bytes × CtrDrbg c) := do
  let conditioned ← d.additionalMaterial additional
  if additional.isEmpty then d.drawThrough conditioned length
  else
    let d ← d.updateThrough conditioned
    d.drawThrough conditioned length

theorem streamThrough_keystream (d : CtrDrbg c) (n : Nat) (v : Bytes)
    (hv : v.length = 16) :
    streamThrough d.context n v = .ok (keystream c d.schedule n v) := by
  induction n generalizing v with
  | zero => rfl
  | succ n ih =>
    have hnext : (nextCounter v).length = 16 := by
      rw [nextCounter_increment v hv, length_increment]
    have hblock : d.context.encryptBlock (nextCounter v) =
        .ok (c.run d.schedule (nextCounter v)) := by
      rw [CipherContext.encryptBlock, if_neg (fun h => h hnext)]
      rfl
    rw [streamThrough, hblock]
    simp only [ih _ hnext]
    rfl

theorem Keyed.updateThrough_update {d : CtrDrbg c} (hd : Keyed d) {provided : Bytes}
    (hp : provided.length = seedLen c) :
    d.updateThrough provided = .ok (d.update provided) := by
  have hlen : (List.take c.keyLen (Bytes.xor ((keystream c d.schedule
      (ceilDiv (seedLen c) blockLen) d.v).1.take (seedLen c))
      provided)).length = c.keyLen := by
    rw [List.length_take, length_update_temp d provided hp]
    exact Nat.min_eq_left (Nat.le_add_right _ _)
  have hrekey : ∀ key : Bytes, key.length = c.keyLen →
      d.context.setKey key = .ok ⟨some (c.expand key)⟩ := fun key h => if_pos h
  unfold updateThrough
  rw [streamThrough_keystream d _ _ hd.v_length]
  change (do
    let rekeyed ← d.context.setKey (List.take c.keyLen _)
    Except.ok _) = _
  rw [hrekey _ hlen]
  rfl

theorem Keyed.drawThrough_draw {d : CtrDrbg c} (hd : Keyed d) {m : Bytes}
    (hm : m.length = seedLen c) (length : Nat) :
    d.drawThrough m length = .ok (d.draw m length) := by
  have hupdate := (hd.counted (ceilDiv length blockLen)).updateThrough_update hm
  unfold drawThrough
  rw [streamThrough_keystream d _ _ hd.v_length]
  change (do
    let next ← CtrDrbg.updateThrough
      { d with v := (keystream c d.schedule (ceilDiv length blockLen) d.v).2 } m
    Except.ok _) = _
  rw [hupdate]
  rfl

/-- No encryption of a call is refused. -/
theorem Keyed.callThrough_generateCall (hkey : c.keyLen ≤ 32) {d : CtrDrbg c} (hd : Keyed d)
    (length : Nat) (additional : Bytes) :
    d.callThrough length additional = d.generateCall length additional := by
  cases hm : d.additionalMaterial additional with
  | error e =>
    rw [generateCall_error hm, callThrough, hm]
    rfl
  | ok m =>
    have hlen : m.length = seedLen c := (additionalMaterial_ok hkey hm).2
    rw [generateCall_draw hm, callThrough, hm]
    cases additional with
    | nil => exact hd.drawThrough_draw hlen length
    | cons b bs =>
      change (do
        let d ← d.updateThrough m
        d.drawThrough m length) = _
      rw [hd.updateThrough_update hlen]
      exact (hd.update hlen).1.drawThrough_draw hlen length

structure Unfailing (d : CtrDrbg c) : Prop where
  keyed : (CipherContext.unkeyed c).setKey d.key = .ok d.context
  update : ∀ provided, provided.length = seedLen c →
    d.updateThrough provided = .ok (d.update provided)
  call : ∀ length additional, d.callThrough length additional = d.generateCall length additional

theorem Keyed.unfailing (hkey : c.keyLen ≤ 32) {d : CtrDrbg c} (hd : Keyed d) : Unfailing d := by
  constructor
  · rw [context, hd.schedule]
    exact if_pos hd.key_length
  · intro provided hp
    exact hd.updateThrough_update hp
  · exact hd.callThrough_generateCall hkey

structure RefinesStandard (c : BlockCipher) : Prop where
  derive : ∀ parts outputLen, parts.flatten.length < 2 ^ 32 → outputLen < 2 ^ 32 →
    c.derive parts outputLen = .ok (df c.keyLen c.encrypt parts.flatten outputLen)
  parts : ∀ parts parts' outputLen, parts.flatten = parts'.flatten →
    c.derive parts outputLen = c.derive parts' outputLen
  accepted : ∀ useDf strict interval entropy nonce personalization,
    (∃ d, create c useDf strict interval entropy nonce personalization = .ok d) ↔
      (strict = true → c.keyLen ≤ entropy.length) ∧
        Admits c useDf entropy [nonce, personalization] personalization
  created : ∀ useDf strict interval entropy nonce personalization d,
    create c useDf strict interval entropy nonce personalization = .ok d →
      d.state = instantiate c.keyLen c.encrypt useDf entropy nonce personalization ∧
        ∀ calls, Accounts c.keyLen c.encrypt useDf d.state (transcript calls d).1
          (transcript calls d).2.state
  reachable : ∀ d, Reachable c d → FollowsStandard d ∧ Unfailing d

theorem refines_of_keyLen {c : BlockCipher} (hkey : c.keyLen ≤ 32) : RefinesStandard c where
  derive := c.derive_df hkey
  parts parts parts' outputLen hflat := by
    rw [BlockCipher.derive, BlockCipher.derive, hflat]
  accepted useDf strict interval entropy nonce personalization := by
    constructor
    · rintro ⟨d, hd⟩
      exact create_accepted hd
    · rintro ⟨hs, ha⟩
      exact ⟨_, create_admitted hkey useDf strict interval _ _ _ hs ha⟩
  created useDf strict interval entropy nonce personalization d hd := by
    obtain ⟨hkeyed, hdf, hstate⟩ := create_refines hkey _ _ _ _ _ _ d hd
    refine ⟨hstate, fun calls => ?_⟩
    rw [← hdf]
    exact transcript_accounts hkey calls d hkeyed
  reachable d hd :=
    ⟨(hd.keyed hkey).follows_standard hkey, (hd.keyed hkey).unfailing hkey⟩

theorem keyLen_le (alg : CipherAlg) : alg.blockCipher.keyLen ≤ 32 := by
  cases alg <;> decide

/-- A generator over any block cipher whose keys fit the fixed one of the derivation function is
the standard's, and so it is over each of the library's ciphers. -/
theorem refines_standard :
    (∀ c : BlockCipher, c.keyLen ≤ 32 → RefinesStandard c) ∧
      ∀ alg : CipherAlg, RefinesStandard alg.blockCipher :=
  ⟨fun _ => refines_of_keyLen, fun alg => refines_of_keyLen (keyLen_le alg)⟩

/-- Without the derivation function, with a personalization and one short request. -/
theorem refines_standard_aes128 :
    ∃ d, create CipherAlg.aes128.blockCipher false true 8 (Bytes.zeros 32) [] [1] = .ok d ∧
      d.state = instantiate 16 CipherAlg.aes128.blockCipher.encrypt false (Bytes.zeros 32) []
        [1] ∧
      (∃ out d', d.generate 20 (some [2]) = (.ok out, d') ∧
        (out, d'.state) = CtrStandard.generate 16 CipherAlg.aes128.blockCipher.encrypt d.useDf 20
          [2] d.state) ∧
      CipherAlg.aes128.blockCipher.derive [[1], [2, 3]] 40 =
        .ok (df 16 CipherAlg.aes128.blockCipher.encrypt [1, 2, 3] 40) := by
  have hall := refines_standard.1 CipherAlg.aes128.blockCipher (by decide)
  have hmade : create CipherAlg.aes128.blockCipher false true 8 (Bytes.zeros 32) [] [1] =
      .ok _ := rfl
  obtain ⟨hfollows, -⟩ := hall.reachable _ (.create hmade)
  refine ⟨_, hmade, (hall.created false true 8 (Bytes.zeros 32) [] [1] _ hmade).1, ?_,
    hall.derive [[1], [2, 3]] 40 (by decide) (by decide)⟩
  refine ⟨_, _, rfl, ?_⟩
  exact hfollows.generate 20 (some [2]) _ _ (by decide) rfl

end CtrDrbg

end CryptoPrimitives
