import CryptoPrimitives.Drbg.Hmac
import CryptoPrimitives.Proofs.Drbg.HmacStandard
import CryptoPrimitives.Proofs.Drbg.Limits
import CryptoPrimitives.Proofs.Hash.Mac

/-!
# HMAC generators refine the standard

Each method in one equation over the standard's machine: what it does to key and chaining value is
the standard's step, and the other fields say only what is counted and allowed. The equations of
the output need the chaining value to have the length of the digest, which `Sized` keeps.
-/

set_option autoImplicit false

namespace CryptoPrimitives

open HmacStandard

namespace HmacDrbg

variable {H : HashFunction}

def state (d : HmacDrbg H) : State := ⟨d.k, d.v⟩

def withState (d : HmacDrbg H) (s : State) : HmacDrbg H := { d with k := s.k, v := s.v }

def status (d : HmacDrbg H) : DrbgStatus := ⟨d.live, d.strict, d.counter, d.interval⟩

abbrev Sized (d : HmacDrbg H) : Prop := d.state.Sized H.outputSize

/-! ## The update -/

theorem any_nonempty_iff (data : List Bytes) :
    data.any (fun part => !part.isEmpty) = true ↔ data.flatten ≠ [] := by
  simp [List.any_eq_true, List.flatten_eq_nil_iff]

theorem mix_eq (d : HmacDrbg H) (round : UInt8) (data : List Bytes) :
    d.mix round data =
      let k := Hmac.mac H d.k (d.v ++ [round] ++ data.flatten)
      d.withState ⟨k, Hmac.mac H k d.v⟩ := by
  simp [mix, advance, withState, Hmac.macParts_flatten]

/-- The rounds look at the parts only through their concatenation. -/
theorem update_eq (d : HmacDrbg H) (data : List Bytes) :
    d.update data =
      d.withState (HmacStandard.update (Hmac.mac H) data.flatten d.state) := by
  have hany := any_nonempty_iff data
  unfold update HmacStandard.update
  by_cases hnone : data.flatten = []
  · have hfalse : ¬data.any (fun part => !part.isEmpty) = true := fun h => hany.mp h hnone
    simp only [hfalse, hnone, mix_eq, state]
    rfl
  · have htrue := hany.mpr hnone
    simp only [htrue, hnone, mix_eq, state]
    rfl

/-! ## Output -/

theorem stream_eq (n : Nat) (d : HmacDrbg H) :
    stream n d =
      let drawn := CtrStandard.rounds (outputRound (Hmac.mac H) d.k) n d.v
      (drawn.1, d.withState ⟨d.k, drawn.2⟩) := by
  induction n generalizing d with
  | zero => rfl
  | succ n ih =>
    have hadvance : d.advance = d.withState ⟨d.k, Hmac.mac H d.k d.v⟩ := by
      simp [advance, withState, Hmac.macParts_flatten]
    rw [stream, hadvance, ih]
    rfl

theorem generateCall_eq {d : HmacDrbg H} (hd : d.Sized) (length : Nat) (additional : Bytes) :
    d.generateCall length additional =
      let made := HmacStandard.generate (Hmac.mac H) length additional d.state
      (made.1, { d.withState made.2 with counter := d.counter + 1 }) := by
  have hmixed : (if additional.isEmpty then d else d.update [additional]) =
      d.withState (if additional = [] then d.state
        else HmacStandard.update (Hmac.mac H) additional d.state) := by
    cases additional with
    | nil => rfl
    | cons b bs => simp [update_eq]
  have hsized : (if additional = [] then d.state
      else HmacStandard.update (Hmac.mac H) additional d.state).Sized H.outputSize := by
    split
    · exact hd
    · exact sized_update (Hmac.length_mac H) _ _
  unfold generateCall HmacStandard.generate
  rw [hmixed]
  generalize (if additional = [] then d.state
    else HmacStandard.update (Hmac.mac H) additional d.state) = s at hsized
  dsimp only
  rw [CtrStandard.whileShort_blocks _ H.outputSize_pos fun v => Hmac.length_mac H _ v,
    stream_eq, update_eq]
  simp only [withState, hsized.v_length, List.flatten_singleton]
  rfl

theorem word_succ (c : UInt64) (n : Nat) : c + 1 + n.toUInt64 = c + (n + 1).toUInt64 := by
  apply UInt64.toNat_inj.mp
  simp only [UInt64.toNat_add, Nat.toUInt64, UInt64.toNat_ofNat']
  change ((c.toNat + 1 % 2 ^ 64) % 2 ^ 64 + n % 2 ^ 64) % 2 ^ 64 = _
  omega

theorem generateCalls_eq {d : HmacDrbg H} (hd : d.Sized) (additional : Bytes)
    (lengths : List Nat) :
    generateCalls additional lengths d =
      let made := generateEach (Hmac.mac H) additional lengths d.state
      (made.1, { d.withState made.2 with counter := d.counter + lengths.length.toUInt64 }) := by
  induction lengths generalizing d with
  | nil =>
    have hcount : d.counter + (0 : Nat).toUInt64 = d.counter := UInt64.add_zero _
    rw [generateCalls, List.length_nil, hcount]
    rfl
  | cons length lengths ih =>
    have hnext : (d.generateCall length additional).2.Sized := by
      rw [generateCall_eq hd]
      exact sized_update (Hmac.length_mac H) _ _
    rw [generateCalls]
    dsimp only
    rw [ih hnext, generateCall_eq hd]
    simp only [withState, List.length_cons, word_succ, generateEach, state]

/-! ## The methods -/

/-- A request that may be served is the standard's, one call after another. -/
theorem generate_eq {d : HmacDrbg H} (hd : d.Sized) (length : Nat) (additional : Option Bytes) :
    d.generate length additional =
      match d.status.check length with
      | .error e => (.error e, d)
      | .ok () =>
        let made := generateEach (Hmac.mac H) (additional.getD [])
          (Drbg.callLengths length) d.state
        (.ok made.1,
          { d.withState made.2 with counter := d.counter + (Drbg.calls length).toUInt64 }) := by
  have hcheck : d.checkRequest length = d.status.check length := rfl
  have hcalls := generateCalls_eq hd (additional.getD []) (Drbg.callLengths length)
  rw [Drbg.length_callLengths] at hcalls
  unfold generate
  rw [hcheck]
  cases d.status.check length with
  | error e => rfl
  | ok u =>
    exact congrArg
      (fun made : Bytes × HmacDrbg H => ((.ok made.1 : Except Fault Bytes), made.2)) hcalls

theorem reseed_eq (d : HmacDrbg H) (entropy : Bytes) (additional : Option Bytes) :
    d.reseed entropy additional =
      match d.admitSeed entropy with
      | .error e => (.error e, d)
      | .ok () =>
        (.ok (),
          { d.withState (HmacStandard.reseed (Hmac.mac H) entropy (additional.getD [])
              d.state) with counter := 1 }) := by
  have hparts : [entropy, additional.getD []].flatten = entropy ++ additional.getD [] := by simp
  rw [reseed, update_eq, hparts]
  rfl

def seeded (H : HashFunction) (strict : Bool) (interval : UInt64) (s : State) : HmacDrbg H :=
  { k := s.k, v := s.v, counter := 1, interval, strict, live := true }

theorem create_eq (H : HashFunction) (strict : Bool) (interval : UInt64)
    (entropy nonce personalization : Bytes) :
    create H strict interval entropy nonce personalization =
      match Drbg.requireEntropy strict H.securityStrength entropy.length with
      | .error e => .error e
      | .ok () => .ok (seeded H strict interval
          (instantiate (Hmac.mac H) H.outputSize entropy nonce personalization)) := by
  have hparts :
      [entropy, nonce, personalization].flatten = entropy ++ nonce ++ personalization := by
    simp
  unfold create
  simp only [update_eq, hparts]
  cases Drbg.requireEntropy strict H.securityStrength entropy.length <;> rfl

/-! ## Calls in a row -/

def Formed (d : HmacDrbg H) : Prop := d.live = true → d.Sized

theorem generate_dead {d : HmacDrbg H} (hd : d.live ≠ true) (length : Nat)
    (additional : Option Bytes) :
    d.generate length additional = (.error .drbgInvalidState, d) := by
  have hcheck : d.checkRequest length = .error .drbgInvalidState := by
    rw [checkRequest, Drbg.requireLive, if_neg hd]
    rfl
  unfold generate
  rw [hcheck]

variable {d : HmacDrbg H}

theorem admitSeed_iff (d : HmacDrbg H) (entropy : Bytes) :
    d.admitSeed entropy = .ok () ↔
      d.live = true ∧ (d.strict = true → H.securityStrength ≤ entropy.length) := by
  rw [← CtrDrbg.requireEntropy_iff, admitSeed, Drbg.requireLive]
  cases d.live with
  | false => simp [bind, Except.bind]
  | true => simp [bind, Except.bind]

/-- Each call is the standard's, or refused and without effect. -/
theorem Formed.answer (hd : Formed d) (call : DrbgCall) :
    (∃ d', Drbg.answer d call = (.ok (machine (Hmac.mac H) call d.state).1, d') ∧
      Formed d' ∧ d'.state = (machine (Hmac.mac H) call d.state).2) ∨
      ∃ e, Drbg.answer d call = (.error e, d) := by
  cases call with
  | reseed entropy additional =>
    have hanswer : Drbg.answer d (.reseed entropy additional) =
        ((d.reseed entropy additional).1.map fun _ => [], (d.reseed entropy additional).2) := rfl
    rw [hanswer, reseed_eq]
    cases d.admitSeed entropy with
    | error e => exact .inr ⟨e, rfl⟩
    | ok u => exact .inl ⟨_, rfl, fun _ => sized_update (Hmac.length_mac H) _ _, rfl⟩
  | generate length additional =>
    have hanswer : Drbg.answer d (.generate length additional) = d.generate length additional := rfl
    rw [hanswer]
    by_cases hlive : d.live = true
    · rw [generate_eq (hd hlive)]
      cases d.status.check length with
      | error e => exact .inr ⟨e, rfl⟩
      | ok u =>
        refine .inl ⟨_, rfl, fun _ => ?_, rfl⟩
        exact sized_generateEach (Hmac.length_mac H) _ _ _ (hd hlive)
    · exact .inr ⟨_, generate_dead hlive length additional⟩

theorem formed_done (d : HmacDrbg H) : Formed d.done := by
  intro hlive
  have hdead : d.done.live = false := rfl
  rw [hdead] at hlive
  cases hlive

theorem Formed.accounted (hd : Formed d) (calls : List DrbgCall) :
    Drbg.Accounted (machine (Hmac.mac H)) d.state (Drbg.transcript calls d).1
      (Drbg.transcript calls d).2.state := by
  induction calls generalizing d with
  | nil => exact .nil _
  | cons call calls ih =>
    rw [Drbg.transcript]
    rcases hd.answer call with ⟨d', hanswer, hd', hstate⟩ | ⟨e, hanswer⟩
    · have hrest := ih hd'
      rw [hstate] at hrest
      rw [hanswer]
      exact .accepted call hrest
    · rw [hanswer]
      exact .refused call e (ih hd)

def Reachable : HmacDrbg H → Prop :=
  Drbg.Reachable fun d => ∃ strict interval entropy nonce personalization,
    create H strict interval entropy nonce personalization = .ok d

theorem create_accepted (H : HashFunction) (strict : Bool) (interval : UInt64)
    (entropy nonce personalization : Bytes)
    (hentropy : strict = true → H.securityStrength ≤ entropy.length) :
    create H strict interval entropy nonce personalization =
      .ok (seeded H strict interval
        (instantiate (Hmac.mac H) H.outputSize entropy nonce personalization)) := by
  rw [create_eq, (CtrDrbg.requireEntropy_iff _ _ _).mpr hentropy]

theorem create_ok {strict : Bool} {interval : UInt64} {entropy nonce personalization : Bytes}
    (h : create H strict interval entropy nonce personalization = .ok d) :
    (strict = true → H.securityStrength ≤ entropy.length) ∧
      d = seeded H strict interval
        (instantiate (Hmac.mac H) H.outputSize entropy nonce personalization) := by
  rw [create_eq] at h
  cases hs : Drbg.requireEntropy strict H.securityStrength entropy.length with
  | error e =>
    rw [hs] at h
    cases h
  | ok u =>
    rw [hs] at h
    cases h
    exact ⟨(CtrDrbg.requireEntropy_iff _ _ _).mp hs, rfl⟩

theorem seeded_formed (strict : Bool) (interval : UInt64) (entropy nonce personalization : Bytes) :
    Formed (seeded H strict interval
      (instantiate (Hmac.mac H) H.outputSize entropy nonce personalization)) :=
  fun _ => sized_update (Hmac.length_mac H) _ _

theorem Reachable.formed (hd : Reachable d) : Formed d := by
  induction hd with
  | made h =>
    obtain ⟨strict, interval, entropy, nonce, personalization, h⟩ := h
    rw [(create_ok h).2]
    exact seeded_formed _ _ _ _ _
  | answer call h ih =>
    rcases ih.answer call with ⟨d', hanswer, hd', -⟩ | ⟨e, hanswer⟩
    · rw [hanswer]
      exact hd'
    · rw [hanswer]
      exact ih
  | done h ih => exact formed_done _

/-! ## The refinement -/

structure FollowsStandard (d : HmacDrbg H) : Prop where
  update : ∀ data, (d.update data).state =
    HmacStandard.update (Hmac.mac H) data.flatten d.state
  reseed_accepted : ∀ entropy additional, (d.reseed entropy additional).1 = .ok () ↔
    d.live = true ∧ (d.strict = true → H.securityStrength ≤ entropy.length)
  reseed : ∀ entropy additional d', d.reseed entropy additional = (.ok (), d') →
    d'.state = HmacStandard.reseed (Hmac.mac H) entropy (additional.getD []) d.state
  generate_accepted : ∀ length additional, length ≤ 65536 →
    ((∃ out, (d.generate length additional).1 = .ok out) ↔
      d.live = true ∧ d.counter ≤ d.interval)
  generate : ∀ length additional out d', length ≤ 65536 →
    d.generate length additional = (.ok out, d') →
      (out, d'.state) =
        HmacStandard.generate (Hmac.mac H) length (additional.getD []) d.state
  reseed_refused : ∀ entropy additional e d', d.reseed entropy additional = (.error e, d') → d' = d
  generate_refused : ∀ length additional e d',
    d.generate length additional = (.error e, d') → d' = d

theorem status_check_single (d : HmacDrbg H) {length : Nat} (hlen : length ≤ 65536) :
    d.status.check length = .ok () ↔ d.live = true ∧ d.counter ≤ d.interval := by
  have hshort : length ≤ Drbg.maxRequest := hlen
  rw [DrbgStatus.check_ok_iff _ (by omega), DrbgStatus.takes_iff,
    Drbg.exceeds_single _ _ hshort, UInt64.not_lt]
  simp [status, hshort]

theorem Formed.follows_standard (hd : Formed d) : FollowsStandard d := by
  have hgenerate : ∀ length additional, d.live = true → _ :=
    fun length additional hlive => generate_eq (hd hlive) length additional
  constructor
  · intro data
    rw [update_eq]
    rfl
  · intro entropy additional
    rw [← admitSeed_iff, reseed_eq]
    cases d.admitSeed entropy <;> simp
  · intro entropy additional d' h
    rw [reseed_eq] at h
    cases hadmission : d.admitSeed entropy with
    | error e => simp [hadmission] at h
    | ok u =>
      simp only [hadmission, Prod.mk.injEq, true_and] at h
      rw [← h]
      rfl
  · intro length additional hlen
    rw [← status_check_single d hlen]
    by_cases hlive : d.live = true
    · rw [hgenerate _ _ hlive]
      cases d.status.check length <;> simp
    · rw [generate_dead hlive, status_check_single d hlen]
      simp [hlive]
  · intro length additional out d' hlen h
    by_cases hlive : d.live = true
    · rw [hgenerate _ _ hlive, CtrDrbg.callLengths_single hlen] at h
      cases hcheck : d.status.check length with
      | error e => simp [hcheck] at h
      | ok u =>
        simp only [hcheck, Prod.mk.injEq, Except.ok.injEq, generateEach, List.append_nil] at h
        obtain ⟨rfl, rfl⟩ := h
        rfl
    · rw [generate_dead hlive] at h
      cases h
  · intro entropy additional e d' h
    rw [reseed_eq] at h
    cases hadmission : d.admitSeed entropy with
    | error e' =>
      simp only [hadmission, Prod.mk.injEq] at h
      exact h.2.symm
    | ok u => simp [hadmission] at h
  · intro length additional e d' h
    by_cases hlive : d.live = true
    · rw [hgenerate _ _ hlive] at h
      cases hcheck : d.status.check length with
      | error e' =>
        simp only [hcheck, Prod.mk.injEq] at h
        exact h.2.symm
      | ok u => simp [hcheck] at h
    · rw [generate_dead hlive] at h
      cases h
      rfl

def Unfailing (d : HmacDrbg H) : Prop :=
  ∀ parts, Hmac.writeMac H d.k parts (Bytes.zeros d.k.length) =
      (.ok (), Hmac.macParts H d.k parts) ∧
    Hmac.writeMac H d.k parts (Bytes.zeros d.v.length) =
      (.ok (), Hmac.macParts H d.k parts)

theorem unfailing_of_sized (hd : d.Sized) : Unfailing d := by
  have hwrite : ∀ parts, Hmac.writeMac H d.k parts (Bytes.zeros H.outputSize) =
      (.ok (), Hmac.macParts H d.k parts) := fun parts =>
    Prod.ext (Hmac.writeMac_accepted _ _ _ _ (Nat.le_of_eq (Bytes.length_zeros _).symm)) rfl
  intro parts
  have hk : d.k.length = H.outputSize := hd.k_length
  have hv : d.v.length = H.outputSize := hd.v_length
  rw [hk, hv]
  exact ⟨hwrite parts, hwrite parts⟩

/-- Over any hash function the update looks at the concatenation of its data alone; the first state,
every call and every run are the standard's over HMAC; and key and chaining value keep the length of
the digest. -/
theorem refines_hmac_standard (H : HashFunction) :
    (∀ (d : HmacDrbg H) data data', data.flatten = data'.flatten → d.update data = d.update data') ∧
    (∀ strict interval entropy nonce personalization,
      ((∃ d, create H strict interval entropy nonce personalization = .ok d) ↔
        (strict = true → H.securityStrength ≤ entropy.length)) ∧
      ∀ d, create H strict interval entropy nonce personalization = .ok d →
        d.state =
            instantiate (Hmac.mac H) H.outputSize entropy nonce personalization ∧
          ∀ calls, Drbg.Accounted (machine (Hmac.mac H)) d.state (Drbg.transcript calls d).1
            (Drbg.transcript calls d).2.state) ∧
    ∀ d : HmacDrbg H, Reachable d →
      FollowsStandard d ∧
        (d.live = true →
          d.k.length = H.outputSize ∧ d.v.length = H.outputSize ∧ Unfailing d) := by
  refine ⟨?_, ?_, ?_⟩
  · intro d data data' hflat
    rw [update_eq, update_eq, hflat]
  · intro strict interval entropy nonce personalization
    constructor
    · constructor
      · rintro ⟨d, h⟩
        exact (create_ok h).1
      · intro hentropy
        exact ⟨_, create_accepted _ _ _ _ _ _ hentropy⟩
    · intro d h
      rw [(create_ok h).2]
      exact ⟨rfl, (seeded_formed _ _ _ _ _).accounted⟩
  · intro d hd
    have hformed := hd.formed
    refine ⟨hformed.follows_standard, fun hlive => ?_⟩
    have hsized := hformed hlive
    exact ⟨hsized.k_length, hsized.v_length, unfailing_of_sized hsized⟩

/-- In strict mode, with a nonce, one request for no bytes and one for more than a block. -/
theorem refines_hmac_standard_sha256 :
    let H := HashAlg.sha256.function
    ∃ d, create H true 8 (Bytes.zeros 32) [1] [] = .ok d ∧
      d.state = instantiate (Hmac.mac H) 32 (Bytes.zeros 32) [1] [] ∧
      d.k.length = 32 ∧
      (∃ out d', d.generate 0 none = (.ok out, d') ∧
        (out, d'.state) = HmacStandard.generate (Hmac.mac H) 0 [] d.state) ∧
      (∃ out d', d.generate 40 (some [2]) = (.ok out, d') ∧
        (out, d'.state) = HmacStandard.generate (Hmac.mac H) 40 [2] d.state) ∧
      d.update [[1], [], [2, 3]] = d.update [[1, 2], [3]] := by
  obtain ⟨hflat, hcreate, hreachable⟩ := refines_hmac_standard HashAlg.sha256.function
  have hmade : create HashAlg.sha256.function true 8 (Bytes.zeros 32) [1] [] = .ok _ := rfl
  have hd := hreachable _ (.made ⟨_, _, _, _, _, hmade⟩)
  refine ⟨_, hmade, ((hcreate true 8 (Bytes.zeros 32) [1] []).2 _ hmade).1, (hd.2 rfl).1, ?_, ?_,
    hflat _ _ _ rfl⟩
  · refine ⟨_, _, rfl, ?_⟩
    exact hd.1.generate 0 none _ _ (by decide) rfl
  · refine ⟨_, _, rfl, ?_⟩
    exact hd.1.generate 40 (some [2]) _ _ (by decide) rfl

end HmacDrbg

end CryptoPrimitives
