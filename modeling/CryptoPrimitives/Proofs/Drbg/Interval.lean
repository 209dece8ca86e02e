import CryptoPrimitives.Proofs.Drbg.Generator

/-!
# What one seed gives

The counter of a generator stands one above the calls that were served since its seed, and the
interval bounds these calls however the requests are cut. `Counted m c g` is the invariant: `c`
calls were served from the present seed of `g`.
-/

set_option autoImplicit false

namespace CryptoPrimitives

def CtrCall.Addressable : CtrCall → Prop
  | .reseed _ _ => True
  | .generate length _ => length < 2 ^ 64

namespace Drbg

def sinceSeed (weight : Nat → Nat) : Nat → Transcript → Nat
  | sum, [] => sum
  | _, (.reseed _ _, .ok _) :: rest => sinceSeed weight 0 rest
  | sum, (.generate length _, .ok _) :: rest => sinceSeed weight (sum + weight length) rest
  | sum, (_, .error _) :: rest => sinceSeed weight sum rest

theorem sinceSeed_cons (weight : Nat → Nat) (sum : Nat) (entry : DrbgCall × Except Fault Bytes)
    (rest : Transcript) :
    sinceSeed weight sum (entry :: rest) =
      sinceSeed weight (sinceSeed weight sum [entry]) rest := by
  rcases entry with ⟨_ | _, _ | _⟩ <;> rfl

theorem sinceSeed_le {weight weight' : Nat → Nat} {factor : Nat}
    (hle : ∀ n, weight n ≤ factor * weight' n) (t : Transcript) (sum sum' : Nat)
    (hsum : sum ≤ factor * sum') :
    sinceSeed weight sum t ≤ factor * sinceSeed weight' sum' t := by
  induction t generalizing sum sum' with
  | nil => exact hsum
  | cons entry t ih =>
    rcases entry with ⟨_ | ⟨length, _⟩, _ | _⟩
    · exact ih _ _ hsum
    · exact ih _ _ (Nat.zero_le _)
    · exact ih _ _ hsum
    · apply ih
      have hl := hle length
      rw [Nat.mul_add]
      omega

end Drbg

theorem DrbgStatus.counted_toNat (s : DrbgStatus) (n : Nat) (h : s.counter.toNat + n < 2 ^ 64) :
    (s.counted n).counter.toNat = s.counter.toNat + n := by
  rw [counted, UInt64.toNat_add, Nat.toUInt64, UInt64.toNat_ofNat']
  omega

namespace Generator

def afterCalls (additional : Bytes) (lengths : List Nat) : Generator → Generator
  | hmac alg d => hmac alg (HmacDrbg.generateCalls additional lengths d).2
  | ctr alg d => ctr alg (CtrDrbg.generateCalls additional lengths d).2

structure Counted (m : Mechanism) (c : Nat) (g : Generator) : Prop where
  fits : Fits m g
  live : g.status.live = true
  counter : g.status.counter.toNat = c + 1
  within : c ≤ m.reseedInterval.toNat

variable {m : Mechanism} {c : Nat} {g : Generator}

theorem Counted.exceeds_iff (hg : Counted m c g) (hI : m.reseedInterval.toNat < 2 ^ 64 - 1)
    (length : Nat) :
    Drbg.Exceeds g.status.counter g.status.interval length ↔
      m.reseedInterval.toNat < c + Drbg.calls length := by
  have hone : 1 ≤ Drbg.calls length := Nat.le_max_left _ _
  rw [Drbg.Exceeds, hg.counter, hg.fits.status_eq.2]
  omega

/-- The word counter counts calls as long as they stay within the interval. -/
theorem Counted.counted_counter (hg : Counted m c g) (hI : m.reseedInterval.toNat < 2 ^ 64 - 1)
    {n : Nat} (hn : c + n ≤ m.reseedInterval.toNat) :
    (g.status.counted n).counter.toNat = c + n + 1 := by
  have hcounter := hg.counter
  rw [DrbgStatus.counted_toNat _ _ (by omega), hcounter]
  omega

/-! ## One call -/

theorem Counted.required_iff (hg : Counted m c g) (hI : m.reseedInterval.toNat < 2 ^ 64 - 1)
    {length : Nat} (hlen : length < 2 ^ 64) (additional : Option Bytes) :
    (g.generate length additional).1 = .error .drbgReseedRequired ↔
      g.status.Takes length ∧ m.reseedInterval.toNat < c + Drbg.calls length := by
  rw [← hg.exceeds_iff hI, ← DrbgStatus.check_required_iff _ hlen]
  generalize hanswer : g.generate length additional = answer
  have hgenerated := hg.fits.generated length additional
  rw [hanswer] at hgenerated
  cases hgenerated with
  | refused h => simp [h]
  | unfit h ha => simp [h]
  | served h ha hout hg' hs => simp [h]

theorem Counted.served (hg : Counted m c g) (hI : m.reseedInterval.toNat < 2 ^ 64 - 1)
    {length : Nat} (hlen : length < 2 ^ 64) {additional : Option Bytes} {out : Bytes}
    {g' : Generator} (h : g.generate length additional = (.ok out, g')) :
    Counted m (c + Drbg.calls length) g' ∧ out.length = length ∧
      m.TakesAdditional (additional.getD []) := by
  have hgenerated := hg.fits.generated length additional
  rw [h] at hgenerated
  cases hgenerated with
  | served hcheck ha hout hg' hs =>
    have hwithin : c + Drbg.calls length ≤ m.reseedInterval.toNat := by
      have hnot := ((DrbgStatus.check_ok_iff _ hlen).mp hcheck).2
      rw [hg.exceeds_iff hI] at hnot
      omega
    refine ⟨⟨hg', ?_, ?_, hwithin⟩, hout, ha⟩
    · rw [hs, DrbgStatus.counted_live]
      exact hg.live
    · rw [hs]
      exact hg.counted_counter hI hwithin

/-- A request is served if it may be and still fits the interval. -/
theorem Counted.accepts (hg : Counted m c g) (hI : m.reseedInterval.toNat < 2 ^ 64 - 1)
    {length : Nat} (hlen : length < 2 ^ 64) (htakes : g.status.Takes length)
    (hwithin : c + Drbg.calls length ≤ m.reseedInterval.toNat) {additional : Option Bytes}
    (ha : m.TakesAdditional (additional.getD [])) :
    ∃ out, (g.generate length additional).1 = .ok out ∧ out.length = length := by
  have hcheck : g.status.check length = .ok () := by
    rw [DrbgStatus.check_ok_iff _ hlen, hg.exceeds_iff hI]
    exact ⟨htakes, Nat.not_lt.mpr hwithin⟩
  generalize hanswer : g.generate length additional = answer
  have hgenerated := hg.fits.generated length additional
  rw [hanswer] at hgenerated
  cases hgenerated with
  | refused h =>
    rw [hcheck] at h
    cases h
  | unfit h hnot => exact absurd ha hnot
  | served h ha' hout hg' hs => exact ⟨_, rfl, hout⟩

theorem Counted.reseed (hg : Counted m c g) {entropy : Bytes} {additional : Option Bytes}
    (h : (g.reseed entropy additional).1 = .ok ()) :
    Counted m 0 (g.reseed entropy additional).2 ∧
      (g.reseed entropy additional).2.status.strict = g.status.strict := by
  generalize hanswer : g.reseed entropy additional = answer at h
  have hreseeded := hg.fits.reseeded entropy additional
  rw [hanswer] at hreseeded
  cases hreseeded with
  | refused hnot => cases h
  | seeded hlive ha hg' hs =>
    refine ⟨⟨hg', ?_, ?_, Nat.zero_le _⟩, ?_⟩
    · rw [hs]
      exact hlive
    · rw [hs]
      rfl
    · rw [hs]

theorem Counted.answer (hg : Counted m c g) (hI : m.reseedInterval.toNat < 2 ^ 64 - 1)
    (call : DrbgCall) (hcall : call.Addressable) :
    Counted m (Drbg.sinceSeed Drbg.calls c [(call, (Drbg.answer g call).1)])
      (Drbg.answer g call).2 := by
  cases call with
  | reseed entropy additional =>
    change Counted m (Drbg.sinceSeed Drbg.calls c [(.reseed entropy additional,
      (g.reseed entropy additional).1.map fun _ => [])]) (g.reseed entropy additional).2
    cases hanswer : (g.reseed entropy additional).1 with
    | ok u => exact (hg.reseed hanswer).1
    | error e =>
      have hsame : (g.reseed entropy additional).2 = g := by
        generalize hboth : g.reseed entropy additional = both at hanswer
        have hreseeded := hg.fits.reseeded entropy additional
        rw [hboth] at hreseeded
        cases hreseeded with
        | refused hnot => rfl
        | seeded hlive ha hg' hs => cases hanswer
      rw [hsame]
      exact hg
  | generate length additional =>
    change Counted m (Drbg.sinceSeed Drbg.calls c [(.generate length additional,
      (g.generate length additional).1)]) (g.generate length additional).2
    generalize hboth : g.generate length additional = both
    have hgenerated := hg.fits.generated length additional
    rw [hboth] at hgenerated
    cases hgenerated with
    | refused h => exact hg
    | unfit h ha => exact hg
    | served h ha hout hg' hs => exact (hg.served hI hcall hboth).1

theorem Counted.next (hg : Counted m c g) (hI : m.reseedInterval.toNat < 2 ^ 64 - 1)
    {call : DrbgCall} (hcall : call.Addressable) {answer : Except Fault Bytes} {g' : Generator}
    (h : Drbg.answer g call = (answer, g')) : ∃ c', Counted m c' g' := by
  have hnext := hg.answer hI call hcall
  rw [h] at hnext
  exact ⟨_, hnext⟩

/-! ## Requests of one call -/

theorem Counted.answers (hg : Counted m c g) (hI : m.reseedInterval.toNat < 2 ^ 64 - 1)
    {length : Nat} (hlen : length ≤ Drbg.maxRequest) :
    (∃ out, (g.generate length none).1 = .ok out) ∨
      (g.generate length none).1 = .error .drbgReseedRequired := by
  have hword : length < 2 ^ 64 := Nat.lt_of_le_of_lt hlen (by decide)
  have hnone : m.TakesAdditional ((none : Option Bytes).getD []) := m.takesAdditional_nil
  have htakes : g.status.Takes length := (DrbgStatus.takes_iff _ _).mpr ⟨hg.live, fun _ => hlen⟩
  by_cases hwithin : c + Drbg.calls length ≤ m.reseedInterval.toNat
  · obtain ⟨out, hout, -⟩ := hg.accepts hI hword htakes hwithin hnone
    exact .inl ⟨out, hout⟩
  · exact .inr ((hg.required_iff hI hword none).mpr ⟨htakes, Nat.lt_of_not_le hwithin⟩)

/-- Right after a reseed a request of one call is served, as no interval is zero. -/
theorem Counted.answers_renewed (hg : Counted m 0 g) (hI : m.reseedInterval.toNat < 2 ^ 64 - 1)
    (hpos : m.reseedInterval ≠ 0) {length : Nat} (hlen : length ≤ Drbg.maxRequest) :
    ∃ out, (g.generate length none).1 = .ok out := by
  have hword : length < 2 ^ 64 := Nat.lt_of_le_of_lt hlen (by decide)
  have hnone : m.TakesAdditional ((none : Option Bytes).getD []) := m.takesAdditional_nil
  have htakes : g.status.Takes length := (DrbgStatus.takes_iff _ _).mpr ⟨hg.live, fun _ => hlen⟩
  have hone : 0 < m.reseedInterval.toNat := by
    apply Nat.pos_of_ne_zero
    intro hzero
    exact hpos (UInt64.toNat_inj.mp hzero)
  have hwithin : 0 + Drbg.calls length ≤ m.reseedInterval.toNat := by
    rw [Drbg.calls_single hlen]
    omega
  obtain ⟨out, hout, -⟩ := hg.accepts hI hword htakes hwithin hnone
  exact ⟨out, hout⟩

/-- Entropy of the configured length is always taken. -/
theorem Counted.reseed_taken (hg : Counted m c g) {entropy : Bytes}
    (hlen : entropy.length = m.entropyLen) : (g.reseed entropy none).1 = .ok () := by
  have hreseeded := hg.fits.reseeded entropy none
  generalize g.reseed entropy none = answer at hreseeded
  cases hreseeded with
  | refused h => exact absurd ⟨hg.live, m.takesSeed_entropyLen entropy hlen⟩ h
  | seeded h ha hg' hs => rfl

/-! ## Runs -/

theorem Counted.transcript (hI : m.reseedInterval.toNat < 2 ^ 64 - 1) (calls : List DrbgCall)
    (hcalls : ∀ call ∈ calls, call.Addressable) (hg : Counted m c g) :
    Counted m (Drbg.sinceSeed Drbg.calls c (Drbg.transcript calls g).1)
      (Drbg.transcript calls g).2 := by
  induction calls generalizing c g with
  | nil => exact hg
  | cons call calls ih =>
    rw [Drbg.transcript, Drbg.sinceSeed_cons]
    exact ih (fun call' h => hcalls call' (List.mem_cons_of_mem _ h))
      (hg.answer hI call (hcalls call List.mem_cons_self))

/-- Each request that is served brings the bytes asked for. -/
theorem Counted.transcript_lengths (hI : m.reseedInterval.toNat < 2 ^ 64 - 1)
    (calls : List DrbgCall) (hcalls : ∀ call ∈ calls, call.Addressable) (hg : Counted m c g) :
    ∀ length additional out,
      (.generate length additional, .ok out) ∈ (Drbg.transcript calls g).1 →
        out.length = length := by
  induction calls generalizing c g with
  | nil =>
    intro length additional out hmem
    cases hmem
  | cons call calls ih =>
    intro length additional out hmem
    rcases List.mem_cons.mp hmem with hfirst | hrest
    · obtain ⟨rfl, hok⟩ := Prod.mk.inj hfirst
      have hboth : g.generate length additional = (.ok out, (g.generate length additional).2) :=
        Prod.ext hok.symm rfl
      exact (hg.served hI (hcalls _ List.mem_cons_self) hboth).2.1
    · exact ih (fun call' h => hcalls call' (List.mem_cons_of_mem _ h))
        (hg.answer hI call (hcalls call List.mem_cons_self)) length additional out hrest

theorem Fits.afterCalls_status (hg : Fits m g) (hlive : g.status.live = true) {additional : Bytes}
    (ha : m.TakesAdditional additional) (lengths : List Nat) :
    (g.afterCalls additional lengths).status = g.status.counted lengths.length := by
  cases m <;> cases g <;> simp only [Fits] at hg
  · rename_i digest strict interval alg d
    change (HmacDrbg.generateCalls additional lengths d).2.status = _
    rw [HmacDrbg.generateCalls_eq (hg.2.1 hlive)]
    rfl
  · rename_i cipher useDf strict interval alg d
    obtain ⟨rfl, rfl, -, -⟩ := hg
    obtain ⟨material, hm⟩ := d.additionalMaterial_taken (CtrDrbg.keyLen_le alg) ha
    obtain ⟨out, d', hcalls, -, -, hs⟩ := CtrDrbg.generateCalls_counted hm lengths
    change (CtrDrbg.generateCalls additional lengths d).2.status = _
    rw [hcalls]
    exact hs

structure KeepsInterval (m : Mechanism) (c : Nat) (g : Generator) : Prop where
  live : g.status.live = true
  counter : g.status.counter.toNat = c + 1
  within : c ≤ m.reseedInterval.toNat
  required_iff : ∀ length additional, length < 2 ^ 64 → g.status.Takes length →
    ((g.generate length additional).1 = .error .drbgReseedRequired ↔
      m.reseedInterval.toNat < c + Drbg.calls length)
  no_overflow : ∀ length additional before l after, length < 2 ^ 64 →
    (∃ out, (g.generate length additional).1 = .ok out) →
    Drbg.callLengths length = before ++ l :: after →
      (g.afterCalls (additional.getD []) before).status.counter.toNat + 1 < 2 ^ 64
  renewed : ∀ length additional entropy nonce, length < 2 ^ 64 →
    (g.generate length additional).1 = .error .drbgReseedRequired →
    (g.reseed entropy nonce).1 = .ok () → Drbg.calls length ≤ m.reseedInterval.toNat →
    m.TakesAdditional (additional.getD []) →
      ∃ out, ((g.reseed entropy nonce).2.generate length additional).1 = .ok out ∧
        out.length = length

theorem Counted.keeps_interval (hg : Counted m c g) (hI : m.reseedInterval.toNat < 2 ^ 64 - 1) :
    KeepsInterval m c g := by
  refine ⟨hg.live, hg.counter, hg.within, ?_, ?_, ?_⟩
  · intro length additional hlen htakes
    rw [hg.required_iff hI hlen]
    exact and_iff_right htakes
  · intro length additional before l after hlen hserved hcut
    obtain ⟨out, hout⟩ := hserved
    have hboth : g.generate length additional = (.ok out, (g.generate length additional).2) :=
      Prod.ext hout rfl
    obtain ⟨hnext, -, ha⟩ := hg.served hI hlen hboth
    have hfew : before.length < Drbg.calls length := by
      rw [← Drbg.length_callLengths, hcut, List.length_append, List.length_cons]
      omega
    have hwithin := hnext.within
    rw [hg.fits.afterCalls_status hg.live ha, hg.counted_counter hI (by omega)]
    omega
  · intro length additional entropy nonce hlen hrequired hreseed hfew ha
    obtain ⟨hnext, hstrict⟩ := hg.reseed hreseed
    obtain ⟨htakes, -⟩ := (hg.required_iff hI hlen additional).mp hrequired
    rw [DrbgStatus.takes_iff] at htakes
    refine hnext.accepts hI hlen ?_ (by omega) ha
    rw [DrbgStatus.takes_iff, hstrict]
    exact ⟨hnext.live, htakes.2⟩

end Generator

namespace Mechanism

open Generator

theorem build_fits {m : Mechanism} {entropy nonce personalization : Bytes} {g : Generator}
    (h : m.build entropy nonce personalization = .ok g) :
    Fits m g ∧ g.status = ⟨true, m.strict, 1, m.reseedInterval⟩ := by
  cases m with
  | hmac digest strict interval =>
    simp only [build] at h
    cases hcreate : HmacDrbg.create digest.function strict interval entropy nonce
        personalization with
    | error e =>
      rw [hcreate] at h
      cases h
    | ok d =>
      rw [hcreate] at h
      cases h
      rw [(HmacDrbg.create_ok hcreate).2]
      exact ⟨⟨rfl, HmacDrbg.seeded_formed _ _ _ _ _, rfl, rfl⟩, rfl⟩
  | ctr cipher useDf strict interval =>
    simp only [build] at h
    cases hcreate : CtrDrbg.create cipher.blockCipher useDf strict interval entropy nonce
        personalization with
    | error e =>
      rw [hcreate] at h
      cases h
    | ok d =>
      rw [hcreate] at h
      cases h
      obtain ⟨hs, ha⟩ := CtrDrbg.create_accepted hcreate
      rw [CtrDrbg.create_admitted (CtrDrbg.keyLen_le cipher) _ _ _ _ _ _ hs ha] at hcreate
      cases hcreate
      exact ⟨⟨rfl, rfl, rfl, rfl⟩, rfl⟩

theorem instantiate_built {m : Mechanism} {entropy nonce personalization : Bytes} {g : Generator}
    (h : (m.instantiate entropy nonce personalization).val = .ok g) :
    m.build entropy nonce personalization = .ok g ∧ m.reseedInterval ≠ 0 := by
  unfold instantiate at h
  by_cases hzero : m.reseedInterval = 0
  · rw [if_pos hzero] at h
    cases h
  rw [if_neg hzero] at h
  cases hbuild : m.build entropy nonce personalization with
  | error e =>
    rw [hbuild] at h
    cases h
  | ok g' =>
    rw [hbuild] at h
    cases h
    exact ⟨rfl, hzero⟩

theorem instantiate_fits {m : Mechanism} {entropy nonce personalization : Bytes} {g : Generator}
    (h : (m.instantiate entropy nonce personalization).val = .ok g) :
    Fits m g ∧ g.status = ⟨true, m.strict, 1, m.reseedInterval⟩ ∧ m.reseedInterval ≠ 0 := by
  obtain ⟨hbuild, hzero⟩ := instantiate_built h
  obtain ⟨hfits, hstatus⟩ := build_fits hbuild
  exact ⟨hfits, hstatus, hzero⟩

theorem instantiate_counted {m : Mechanism} {entropy nonce personalization : Bytes} {g : Generator}
    (h : (m.instantiate entropy nonce personalization).val = .ok g) : Counted m 0 g := by
  obtain ⟨hfits, hstatus, -⟩ := instantiate_fits h
  exact ⟨hfits, by rw [hstatus], by rw [hstatus]; rfl, Nat.zero_le _⟩

/-- However requests and reseeds are mixed, the counter stands one above the calls since the seed,
these calls never exceed the interval, and a request is refused for it exactly when its calls would;
so one seed gives at most so many times 65536 bytes. -/
theorem interval_bounds_seed (m : Mechanism) (hI : m.reseedInterval.toNat < 2 ^ 64 - 1)
    (entropy nonce personalization : Bytes) (g : Generator)
    (hg : (m.instantiate entropy nonce personalization).val = .ok g) (calls : List DrbgCall)
    (hcalls : ∀ call ∈ calls, call.Addressable) :
    let run := Drbg.transcript calls g
    KeepsInterval m (Drbg.sinceSeed Drbg.calls 0 run.1) run.2 ∧
      (∀ length additional out, (.generate length additional, .ok out) ∈ run.1 →
        out.length = length) ∧
      Drbg.sinceSeed id 0 run.1 ≤ 65536 * m.reseedInterval.toNat := by
  have hstart := instantiate_counted hg
  have hkeeps := (hstart.transcript hI calls hcalls).keeps_interval hI
  refine ⟨hkeeps, hstart.transcript_lengths hI calls hcalls, ?_⟩
  have hbytes := Drbg.sinceSeed_le Drbg.length_le_calls (Drbg.transcript calls g).1 0 0
    (Nat.zero_le _)
  exact hbytes.trans (Nat.mul_le_mul_left _ hkeeps.within)

/-- An interval of two calls, one of which has been made: a request of two calls is refused, and
served after a reseed. -/
theorem interval_bounds_seed_two :
    ∃ g, ((hmac .sha256 false 2).instantiate (Bytes.zeros 32) [] []).val = .ok g ∧
      (∀ call ∈ [CtrCall.generate 5 none], call.Addressable) ∧
      ∃ g', (Drbg.transcript [.generate 5 none] g).2 = g' ∧ g'.status.counter.toNat = 2 ∧
        (g'.generate 65537 none).1 = .error .drbgReseedRequired ∧
        ∃ out, ((g'.reseed [1] none).2.generate 65537 none).1 = .ok out ∧ out.length = 65537 := by
  obtain ⟨g, hmade⟩ :
      ∃ g, ((hmac .sha256 false 2).instantiate (Bytes.zeros 32) [] []).val = .ok g := ⟨_, rfl⟩
  have hcalls : ∀ call ∈ [CtrCall.generate 5 none], call.Addressable := by
    intro call hcall
    rw [List.mem_singleton.mp hcall]
    exact Nat.lt_of_lt_of_le (by decide : 5 < 6) (by decide)
  obtain ⟨hkeeps, -, -⟩ := interval_bounds_seed (hmac .sha256 false 2) (by decide) _ _ _ _ hmade
    [.generate 5 none] hcalls
  have hstart := instantiate_counted hmade
  have hended := hstart.transcript (by decide) [.generate 5 none] hcalls
  have hone : Drbg.sinceSeed Drbg.calls 0 (Drbg.transcript [.generate 5 none] g).1 = 1 := by
    obtain ⟨out, hout⟩ :=
      hstart.answers_renewed (by decide) (by decide) (by decide : 5 ≤ Drbg.maxRequest)
    change Drbg.sinceSeed Drbg.calls 0 [(.generate 5 none, (g.generate 5 none).1)] = 1
    rw [hout]
    rfl
  rw [hone] at hkeeps
  generalize hg : (Drbg.transcript [.generate 5 none] g).2 = g' at hkeeps hended
  have htakes : g'.status.Takes 65537 := by
    rw [DrbgStatus.takes_iff, hended.fits.status_eq.1]
    exact ⟨hkeeps.live, fun hs => absurd hs (by decide)⟩
  have hrequired := (hkeeps.required_iff 65537 none (by decide) htakes).mpr (by decide)
  have hreseed : (g'.reseed [1] none).1 = .ok () := by
    have hreseeded := hended.fits.reseeded [1] none
    generalize g'.reseed [1] none = answer at hreseeded
    cases hreseeded with
    | refused h => exact absurd ⟨hkeeps.live, fun hs => absurd hs (by decide)⟩ h
    | seeded hlive ha hg' hs => rfl
  exact ⟨g, hmade, hcalls, g', hg, hkeeps.counter, hrequired,
    hkeeps.renewed 65537 none [1] none (by decide) hrequired hreseed (by decide) trivial⟩

end Mechanism

end CryptoPrimitives
