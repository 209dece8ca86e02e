import CryptoPrimitives.Drbg.Mechanism
import CryptoPrimitives.Proofs.Drbg.Hmac

/-!
# Built-in generators answering

What one request and one reseed do, whichever mechanism was chosen. `Fits m g` keeps the choices of
`m` in the generator; under it `Generated` and `Reseeded` list all that a call can do, with the
reasons for each refusal.
-/

set_option autoImplicit false

namespace CryptoPrimitives

def DrbgStatus.counted (s : DrbgStatus) (n : Nat) : DrbgStatus :=
  { s with counter := s.counter + n.toUInt64 }

@[simp] theorem DrbgStatus.counted_live (s : DrbgStatus) (n : Nat) :
    (s.counted n).live = s.live := rfl

namespace CtrDrbg

variable {c : BlockCipher}

def status (d : CtrDrbg c) : DrbgStatus := ⟨d.live, d.strict, d.counter, d.interval⟩

def TakesAdditional (c : BlockCipher) (useDf : Bool) (additional : Bytes) : Prop :=
  if useDf then additional.length < 2 ^ 32 else additional.length ≤ seedLen c

theorem additionalMaterial_taken (hkey : c.keyLen ≤ 32) (d : CtrDrbg c) {additional : Bytes}
    (ha : TakesAdditional c d.useDf additional) : ∃ m, d.additionalMaterial additional = .ok m := by
  unfold additionalMaterial
  by_cases hnone : additional.isEmpty = true
  · exact ⟨_, if_pos hnone⟩
  rw [if_neg hnone]
  cases hdf : d.useDf with
  | true =>
    rw [hdf] at ha
    have hadmits : Admits c true additional [] [] := by simpa [Admits, TakesAdditional] using ha
    exact ⟨_, seedMaterial_admitted hkey true additional [] [] hadmits⟩
  | false =>
    rw [hdf] at ha
    exact ⟨_, toSeedLength_padded additional ha⟩

theorem additionalMaterial_refused (d : CtrDrbg c) {additional : Bytes}
    (ha : ¬TakesAdditional c d.useDf additional) :
    d.additionalMaterial additional = .error .invalidInput := by
  have hlong : additional.isEmpty = false := by
    cases additional with
    | nil => cases hdf : d.useDf <;> simp [TakesAdditional, hdf] at ha
    | cons b bs => rfl
  unfold additionalMaterial
  rw [hlong, if_neg Bool.false_ne_true]
  cases hdf : d.useDf with
  | true =>
    rw [hdf] at ha
    have hadmits : ¬Admits c true additional [] [] := by simpa [Admits, TakesAdditional] using ha
    exact seedMaterial_refused true additional [] [] hadmits
  | false =>
    rw [hdf] at ha
    exact if_pos (Nat.lt_of_not_le ha)

/-- One call brings its bytes and counts one; nothing that decides later calls changes. -/
theorem generateCall_counted {d : CtrDrbg c} {additional m : Bytes}
    (hm : d.additionalMaterial additional = .ok m) (length : Nat) :
    ∃ out d', d.generateCall length additional = .ok (out, d') ∧ out.length = length ∧
      d'.useDf = d.useDf ∧ d'.status = { d.status with counter := d.counter + 1 } := by
  rw [generateCall_draw hm]
  have hsame : (if additional.isEmpty then d else d.update m).useDf = d.useDf ∧
      (if additional.isEmpty then d else d.update m).status = d.status := by
    split <;> exact ⟨rfl, rfl⟩
  generalize (if additional.isEmpty then d else d.update m) = d1 at hsame
  obtain ⟨hdf, hstatus⟩ := hsame
  refine ⟨_, _, rfl, ?_, hdf, ?_⟩
  · rw [List.length_take, length_keystream]
    unfold ceilDiv blockLen
    omega
  · have hcounter : d1.counter = d.counter := congrArg DrbgStatus.counter hstatus
    rw [← hstatus, ← hcounter]
    rfl

theorem generateCalls_counted {d : CtrDrbg c} {additional m : Bytes}
    (hm : d.additionalMaterial additional = .ok m) (lengths : List Nat) :
    ∃ out d', generateCalls additional lengths d = (.ok out, d') ∧ out.length = lengths.sum ∧
      d'.useDf = d.useDf ∧ d'.status = d.status.counted lengths.length := by
  induction lengths generalizing d with
  | nil =>
    refine ⟨[], d, rfl, rfl, rfl, ?_⟩
    have hcount : d.counter + (0 : Nat).toUInt64 = d.counter := UInt64.add_zero _
    rw [DrbgStatus.counted, List.length_nil]
    change d.status = { d.status with counter := d.counter + (0 : Nat).toUInt64 }
    rw [hcount]
    rfl
  | cons length lengths ih =>
    obtain ⟨out, d1, hcall, hout, hdf, hstatus⟩ := generateCall_counted hm length
    have hm1 : d1.additionalMaterial additional = .ok m := by
      rw [← hm, additionalMaterial, additionalMaterial, hdf]
    obtain ⟨rest, d2, hcalls, hrest, hdf2, hstatus2⟩ := ih hm1
    refine ⟨out ++ rest, d2, ?_, ?_, hdf2.trans hdf, ?_⟩
    · rw [generateCalls, hcall]
      simp only [hcalls]
    · rw [List.length_append, hout, hrest, List.sum_cons]
    · rw [hstatus2, hstatus, DrbgStatus.counted, DrbgStatus.counted, List.length_cons,
        ← HmacDrbg.word_succ]
      rfl

theorem checkRequest_eq (d : CtrDrbg c) (length : Nat) (additional : Bytes) :
    d.checkRequest length additional =
      (do
        d.status.check length
        if !d.useDf && seedLen c < additional.length then throw .invalidInput) := by
  simp only [checkRequest, DrbgStatus.check, bind_assoc]
  rfl

theorem generate_refused {d : CtrDrbg c} {length : Nat} {e : Fault}
    (h : d.status.check length = .error e) (additional : Option Bytes) :
    d.generate length additional = (.error e, d) := by
  have hcheck : d.checkRequest length (additional.getD []) = .error e := by
    rw [checkRequest_eq, h]
    rfl
  unfold generate
  simp only [hcheck]

theorem generate_unfit {d : CtrDrbg c} {length : Nat} {additional : Option Bytes}
    (h : d.status.check length = .ok ())
    (ha : ¬TakesAdditional c d.useDf (additional.getD [])) :
    d.generate length additional = (.error .invalidInput, d) := by
  cases hdf : d.useDf with
  | false =>
    rw [hdf] at ha
    have hlong : seedLen c < (additional.getD []).length := Nat.lt_of_not_le ha
    have hcheck : d.checkRequest length (additional.getD []) = .error .invalidInput := by
      rw [checkRequest_eq, h, hdf]
      exact if_pos (by simpa using hlong)
    unfold generate
    simp only [hcheck]
  | true =>
    have hcheck : d.checkRequest length (additional.getD []) = .ok () := by
      rw [checkRequest_eq, h, hdf]
      rfl
    obtain ⟨first, rest, hlengths⟩ := callLengths_cons length
    have hcall := generateCall_error (d.additionalMaterial_refused ha) first
    rw [generate_served hcheck, hlengths, generateCalls, hcall]

theorem checkRequest_taken {d : CtrDrbg c} {length : Nat} {additional : Bytes}
    (h : d.status.check length = .ok ()) (ha : TakesAdditional c d.useDf additional) :
    d.checkRequest length additional = .ok () := by
  rw [checkRequest_eq, h]
  cases hdf : d.useDf with
  | true => rfl
  | false =>
    rw [hdf] at ha
    have hshort : additional.length ≤ seedLen c := ha
    exact if_neg (by simpa using hshort)

theorem generate_taken (hkey : c.keyLen ≤ 32) {d : CtrDrbg c} {length : Nat}
    {additional : Option Bytes} (h : d.status.check length = .ok ())
    (ha : TakesAdditional c d.useDf (additional.getD [])) :
    ∃ out d', d.generate length additional = (.ok out, d') ∧ out.length = length ∧
      d'.useDf = d.useDf ∧ d'.status = d.status.counted (Drbg.calls length) := by
  obtain ⟨m, hm⟩ := d.additionalMaterial_taken hkey ha
  rw [generate_served (checkRequest_taken h ha), ← Drbg.length_callLengths]
  obtain ⟨out, d', hcalls, hout, hrest⟩ := generateCalls_counted hm (Drbg.callLengths length)
  exact ⟨out, d', hcalls, hout.trans (Drbg.callLengths_sum length), hrest⟩

theorem reseed_admitted (hkey : c.keyLen ≤ 32) {d : CtrDrbg c} {entropy : Bytes}
    {additional : Option Bytes} (hlive : d.live = true)
    (hentropy : d.strict = true → c.keyLen ≤ entropy.length)
    (ha : Admits c d.useDf entropy [additional.getD []] (additional.getD [])) :
    ∃ d', d.reseed entropy additional = (.ok (), d') ∧ d'.useDf = d.useDf ∧
      d'.status = { d.status with counter := 1 } := by
  have hadmission : ∃ seed, d.admitSeed entropy (additional.getD []) = .ok seed := by
    rw [admitSeed, Drbg.requireLive, if_pos hlive, (requireEntropy_iff _ _ _).mpr hentropy,
      seedMaterial_admitted hkey _ _ _ _ ha]
    exact ⟨_, rfl⟩
  obtain ⟨seed, hseed⟩ := hadmission
  unfold reseed
  rw [hseed]
  exact ⟨_, rfl, rfl, rfl⟩

theorem reseed_refused {d : CtrDrbg c} {entropy : Bytes} {additional : Option Bytes}
    (h : ¬(d.live = true ∧ (d.strict = true → c.keyLen ≤ entropy.length) ∧
      Admits c d.useDf entropy [additional.getD []] (additional.getD []))) :
    ∃ e, d.reseed entropy additional = (.error e, d) := by
  unfold reseed
  cases hadmission : d.admitSeed entropy (additional.getD []) with
  | error e => exact ⟨e, rfl⟩
  | ok seed =>
    exfalso
    apply h
    unfold admitSeed at hadmission
    cases hlive : d.live with
    | false =>
      rw [Drbg.requireLive, hlive] at hadmission
      cases hadmission
    | true =>
      cases hs : Drbg.requireEntropy d.strict c.keyLen entropy.length with
      | error e =>
        rw [Drbg.requireLive, hlive, hs] at hadmission
        cases hadmission
      | ok u =>
        refine ⟨rfl, (requireEntropy_iff _ _ _).mp hs, ?_⟩
        by_contra ha
        rw [Drbg.requireLive, hlive, hs, seedMaterial_refused _ _ _ _ ha] at hadmission
        cases hadmission

end CtrDrbg

namespace Mechanism

def strict : Mechanism → Bool
  | hmac _ strict _ => strict
  | ctr _ _ strict _ => strict

def TakesAdditional : Mechanism → Bytes → Prop
  | hmac _ _ _, _ => True
  | ctr cipher useDf _ _, additional =>
    CtrDrbg.TakesAdditional cipher.blockCipher useDf additional

def TakesSeed : Mechanism → Bytes → Bytes → Prop
  | hmac digest strict _, entropy, _ => strict = true → digest.securityStrength ≤ entropy.length
  | ctr cipher useDf strict _, entropy, additional =>
    (strict = true → cipher.keyLen ≤ entropy.length) ∧
      CtrDrbg.Admits cipher.blockCipher useDf entropy [additional] additional

/-- No additional input is always taken. -/
theorem takesAdditional_nil (m : Mechanism) : m.TakesAdditional [] := by
  cases m with
  | hmac digest strict interval => trivial
  | ctr cipher useDf strict interval =>
    cases useDf <;> simp [TakesAdditional, CtrDrbg.TakesAdditional]

/-- The configured entropy is what a reseed without additional input takes. -/
theorem takesSeed_entropyLen (m : Mechanism) (entropy : Bytes)
    (hlen : entropy.length = m.entropyLen) : m.TakesSeed entropy [] := by
  cases m with
  | hmac digest strict interval => exact fun _ => Nat.le_of_eq hlen.symm
  | ctr cipher useDf strict interval =>
    cases useDf with
    | true =>
      have hexact : entropy.length = cipher.keyLen := hlen
      have hkey := CtrDrbg.keyLen_le cipher
      have hsame : cipher.blockCipher.keyLen = cipher.keyLen := rfl
      refine ⟨fun _ => Nat.le_of_eq hexact.symm, ?_⟩
      change (List.flatten [entropy, []]).length < 2 ^ 32
      simp only [List.flatten_cons, List.flatten_nil, List.append_nil]
      omega
    | false =>
      have hexact : entropy.length = cipher.keyLen + cipher.blockLen := hlen
      exact ⟨fun _ => by omega, hexact, Nat.zero_le _⟩

end Mechanism

namespace Generator

def status : Generator → DrbgStatus
  | hmac _ d => d.status
  | ctr _ d => d.status

def Fits : Mechanism → Generator → Prop
  | .hmac digest strict interval, .hmac alg d =>
    alg = digest ∧ d.Formed ∧ d.strict = strict ∧ d.interval = interval
  | .ctr cipher useDf strict interval, .ctr alg d =>
    alg = cipher ∧ d.useDf = useDf ∧ d.strict = strict ∧ d.interval = interval
  | _, _ => False

inductive Generated (m : Mechanism) (g : Generator) (length : Nat) (additional : Bytes) :
    Except Fault Bytes × Generator → Prop
  | refused {e : Fault} (h : g.status.check length = .error e) :
      Generated m g length additional (.error e, g)
  | unfit (h : g.status.check length = .ok ()) (ha : ¬m.TakesAdditional additional) :
      Generated m g length additional (.error .invalidInput, g)
  | served {out : Bytes} {g' : Generator} (h : g.status.check length = .ok ())
      (ha : m.TakesAdditional additional) (hout : out.length = length) (hg : Fits m g')
      (hs : g'.status = g.status.counted (Drbg.calls length)) :
      Generated m g length additional (.ok out, g')

inductive Reseeded (m : Mechanism) (g : Generator) (entropy additional : Bytes) :
    Except Fault Unit × Generator → Prop
  | refused {e : Fault} (h : ¬(g.status.live = true ∧ m.TakesSeed entropy additional)) :
      Reseeded m g entropy additional (.error e, g)
  | seeded {g' : Generator} (h : g.status.live = true) (ha : m.TakesSeed entropy additional)
      (hg : Fits m g') (hs : g'.status = { g.status with counter := 1 }) :
      Reseeded m g entropy additional (.ok (), g')

variable {m : Mechanism} {g : Generator}

theorem Fits.status_eq (hg : Fits m g) :
    g.status.strict = m.strict ∧ g.status.interval = m.reseedInterval := by
  cases m <;> cases g <;> simp only [Fits] at hg
  · exact ⟨hg.2.2.1, hg.2.2.2⟩
  · exact ⟨hg.2.2.1, hg.2.2.2⟩

theorem Fits.generated (hg : Fits m g) (length : Nat) (additional : Option Bytes) :
    Generated m g length (additional.getD []) (g.generate length additional) := by
  cases m <;> cases g <;> simp only [Fits] at hg
  · rename_i digest strict interval alg d
    obtain ⟨rfl, hformed, hstrict, hinterval⟩ := hg
    change Generated _ (.hmac alg d) length _ ((d.generate length additional).1,
      .hmac alg (d.generate length additional).2)
    by_cases hlive : d.live = true
    · rw [HmacDrbg.generate_eq (hformed hlive)]
      cases hcheck : d.status.check length with
      | error e => exact .refused hcheck
      | ok u =>
        refine .served hcheck trivial ?_ ⟨rfl, fun _ => ?_, hstrict, hinterval⟩ rfl
        · rw [HmacStandard.length_generateEach alg.function.outputSize_pos (Hmac.length_mac _),
            Drbg.callLengths_sum]
        · exact HmacStandard.sized_generateEach (Hmac.length_mac _) _ _ _ (hformed hlive)
    · rw [HmacDrbg.generate_dead hlive]
      apply Generated.refused
      change d.status.check length = _
      rw [DrbgStatus.check, Drbg.requireLive]
      exact if_neg hlive ▸ rfl
  · rename_i cipher useDf strict interval alg d
    obtain ⟨rfl, rfl, hstrict, hinterval⟩ := hg
    change Generated _ (.ctr alg d) length _ ((d.generate length additional).1,
      .ctr alg (d.generate length additional).2)
    cases hcheck : d.status.check length with
    | error e =>
      rw [CtrDrbg.generate_refused hcheck]
      exact .refused hcheck
    | ok u =>
      by_cases ha : CtrDrbg.TakesAdditional alg.blockCipher d.useDf (additional.getD [])
      · obtain ⟨out, d', hserved, hout, hdf, hs⟩ :=
          CtrDrbg.generate_taken (CtrDrbg.keyLen_le alg) hcheck ha
        rw [hserved]
        exact .served hcheck ha hout
          ⟨rfl, hdf, (congrArg DrbgStatus.strict hs).trans hstrict,
            (congrArg DrbgStatus.interval hs).trans hinterval⟩ hs
      · rw [CtrDrbg.generate_unfit hcheck ha]
        exact .unfit hcheck ha

theorem Fits.reseeded (hg : Fits m g) (entropy : Bytes) (additional : Option Bytes) :
    Reseeded m g entropy (additional.getD []) (g.reseed entropy additional) := by
  cases m <;> cases g <;> simp only [Fits] at hg
  · rename_i digest strict interval alg d
    obtain ⟨rfl, hformed, hstrict, hinterval⟩ := hg
    change Reseeded _ (.hmac alg d) entropy _ ((d.reseed entropy additional).1,
      .hmac alg (d.reseed entropy additional).2)
    have hadmission := HmacDrbg.admitSeed_iff d entropy
    rw [HmacDrbg.reseed_eq]
    subst hstrict hinterval
    cases hs : d.admitSeed entropy with
    | error e =>
      apply Reseeded.refused
      intro h
      rw [hs] at hadmission
      cases hadmission.mpr h
    | ok u =>
      rw [hs] at hadmission
      obtain ⟨hlive, hentropy⟩ := hadmission.mp rfl
      exact .seeded hlive hentropy
        ⟨rfl, fun _ => HmacStandard.sized_update (Hmac.length_mac _) _ _, rfl, rfl⟩ rfl
  · rename_i cipher useDf strict interval alg d
    obtain ⟨rfl, rfl, rfl, rfl⟩ := hg
    change Reseeded _ (.ctr alg d) entropy _ ((d.reseed entropy additional).1,
      .ctr alg (d.reseed entropy additional).2)
    by_cases h : d.live = true ∧ (d.strict = true → alg.blockCipher.keyLen ≤ entropy.length) ∧
        CtrDrbg.Admits alg.blockCipher d.useDf entropy [additional.getD []] (additional.getD [])
    · obtain ⟨d', hanswer, hdf, hs⟩ :=
        CtrDrbg.reseed_admitted (CtrDrbg.keyLen_le alg) h.1 h.2.1 h.2.2
      rw [hanswer]
      exact .seeded h.1 h.2 ⟨rfl, hdf, congrArg DrbgStatus.strict hs,
        congrArg DrbgStatus.interval hs⟩ hs
    · obtain ⟨e, hanswer⟩ := CtrDrbg.reseed_refused h
      rw [hanswer]
      exact .refused h

theorem Fits.answer (hg : Fits m g) (call : DrbgCall) : Fits m (Drbg.answer g call).2 := by
  cases call with
  | reseed entropy additional =>
    change Fits m (g.reseed entropy additional).2
    generalize hboth : g.reseed entropy additional = both
    have hreseeded := hg.reseeded entropy additional
    rw [hboth] at hreseeded
    cases hreseeded with
    | refused h => exact hg
    | seeded h ha hg' hs => exact hg'
  | generate length additional =>
    change Fits m (g.generate length additional).2
    generalize hboth : g.generate length additional = both
    have hgenerated := hg.generated length additional
    rw [hboth] at hgenerated
    cases hgenerated with
    | refused h => exact hg
    | unfit h ha => exact hg
    | served h ha hout hg' hs => exact hg'

theorem Fits.done (hg : Fits m g) : Fits m (Drbg.done g) := by
  cases m <;> cases g <;> simp only [Fits] at hg
  · exact ⟨hg.1, HmacDrbg.formed_done _, hg.2.2⟩
  · exact hg

theorem Fits.reachable (hg : Fits m g) {d : Generator} (hd : Drbg.Reachable (· = g) d) :
    Fits m d := by
  induction hd with
  | made h => exact h ▸ hg
  | answer call h ih => exact ih.answer call
  | done h ih => exact ih.done

theorem Fits.fills (hg : Fits m g) : Drbg.Fills g := by
  intro d' hd' length additional bytes hserved
  have hfits := hg.reachable hd'
  change (d'.generate length additional).1 = .ok bytes at hserved
  generalize hboth : d'.generate length additional = both at hserved
  have hgenerated := hfits.generated length additional
  rw [hboth] at hgenerated
  cases hgenerated with
  | refused h => cases hserved
  | unfit h ha => cases hserved
  | served h ha hout hg' hs =>
    cases hserved
    exact hout

end Generator

end CryptoPrimitives
