import CryptoPrimitives.Proofs.Csprng.Passes

/-!
# Why a manager becomes fatal

Over a built-in generator that is seeded as its mechanism asks, a request ends in the fatal state
for one reason: a reseed was due and the entropy source had none of it left. `Orderly` lists what
such a manager hears from its generator, in which nothing is refused but a request that is repeated
with success after a reseed.
-/

set_option autoImplicit false

namespace CryptoPrimitives

/-- Calls and answers of a generator: explicit reseeds have a nonce, implicit ones succeed, and
requests are served, if need be after such a reseed. -/
inductive Orderly (seedLen : Nat) : Transcript → Prop
  | nil : Orderly seedLen []
  | explicit {heard : Transcript} (seed nonce : Bytes) (answer : Except Fault Bytes)
      (h : Orderly seedLen heard) : Orderly seedLen (heard ++ [(.reseed seed (some nonce), answer)])
  | renewed {heard : Transcript} {seed : Bytes} (hseed : seed.length = seedLen)
      (h : Orderly seedLen heard) : Orderly seedLen (heard ++ [(.reseed seed none, .ok [])])
  | served {heard : Transcript} {length : Nat} {bytes : Bytes} (h : Orderly seedLen heard) :
      Orderly seedLen (heard ++ [(.generate length none, .ok bytes)])
  | retried {heard : Transcript} {length : Nat} {seed bytes : Bytes} (hseed : seed.length = seedLen)
      (h : Orderly seedLen heard) :
      Orderly seedLen (heard ++ [(.generate length none, .error .drbgReseedRequired),
        (.reseed seed none, .ok []), (.generate length none, .ok bytes)])

def CutShort (seedLen : Nat) (heard : Transcript) : Prop :=
  Orderly seedLen heard ∨ ∃ before length, Orderly seedLen before ∧
    heard = before ++ [(.generate length none, .error .drbgReseedRequired)]

theorem Orderly.required {seedLen : Nat} {heard : Transcript} (h : Orderly seedLen heard)
    {length : Nat} {additional : Option Bytes} {e : Fault}
    (hmem : (.generate length additional, .error e) ∈ heard) : e = .drbgReseedRequired := by
  induction h with
  | nil => cases hmem
  | explicit _ _ _ _ ih | renewed _ _ ih | served _ ih =>
    rcases List.mem_append.mp hmem with hold | hnew
    · exact ih hold
    · cases List.mem_singleton.mp hnew
  | retried hseed h ih =>
    rcases List.mem_append.mp hmem with hold | hnew
    · exact ih hold
    · rcases List.mem_cons.mp hnew with hfirst | hrest
      · cases hfirst
        rfl
      · simp at hrest

theorem CutShort.required {seedLen : Nat} {heard : Transcript} (h : CutShort seedLen heard)
    {length : Nat} {additional : Option Bytes} {e : Fault}
    (hmem : (.generate length additional, .error e) ∈ heard) : e = .drbgReseedRequired := by
  rcases h with horderly | ⟨before, length', hbefore, rfl⟩
  · exact horderly.required hmem
  · rcases List.mem_append.mp hmem with hold | hnew
    · exact hbefore.required hold
    · cases List.mem_singleton.mp hnew
      rfl

namespace Csprng

variable {δ ε π : Type} [Drbg δ] [EntropySource ε] [Policy π]

def called (wanted : Nat) (g : Csprng δ ε π) : Nat :=
  if wanted < g.cache.length then g.cache.length else min wanted g.maxRequest

inductive PassDry (wanted : Nat) (g : Csprng δ ε π) : Prop
  | asked (hdue : (Policy.due g.policy).1 = true)
      (hdry : Exhausted g.entropy g.entropyLen g.maxRetry)
  | required {g' : Csprng δ ε π} {log : List LogLine} (hrun : refreshIfDue g = ⟨.ok (), g', log⟩)
      (hmiss : g'.cache.length - g'.cursor < wanted)
      (hrequired : (Drbg.generate g'.drbg (called wanted g') none).1 = .error .drbgReseedRequired)
      (hdry : Exhausted g'.entropy g'.entropyLen g'.maxRetry)

inductive RequestDry : Nat → Csprng δ ε π → Prop
  | now {wanted : Nat} {g : Csprng δ ε π} (h : PassDry wanted g) : RequestDry wanted g
  | later {wanted : Nat} {g g' : Csprng δ ε π} {bytes : Bytes} {log : List LogLine}
      (hpass : pass wanted g = ⟨.ok bytes, g', log⟩)
      (h : RequestDry (wanted - bytes.length) g') : RequestDry wanted g

theorem PassDry.plain {wanted : Nat} {g : Csprng (Overheard δ) ε π} (h : PassDry wanted g) :
    PassDry wanted g.plain := by
  cases h with
  | asked hdue hdry => exact .asked hdue hdry
  | required hrun hmiss hrequired hdry =>
    exact .required (refreshIfDue_heard.run hrun) hmiss hrequired hdry

theorem RequestDry.plain {wanted : Nat} {g : Csprng (Overheard δ) ε π} (h : RequestDry wanted g) :
    RequestDry wanted g.plain := by
  induction h with
  | now h => exact .now h.plain
  | later hpass h ih => exact .later ((pass_heard _).run hpass) ih

/-! ## One step -/

section

omit [Drbg δ]

structure Sound (m : Mechanism) (g : Csprng (Overheard Generator) ε π) : Prop where
  counted : ∃ c, Generator.Counted m c g.drbg.drbg
  seedLen : g.entropyLen = m.entropyLen
  orderly : Orderly m.entropyLen g.drbg.heard
  seeded : g.phase = .seeded

def Leaves {α : Type} (m : Mechanism) (dry : Prop) :
    Except Halt α → Csprng (Overheard Generator) ε π → Prop
  | .ok _, g => Sound m g
  | .error halt, g =>
    halt = .entered .entropySourceFailure ∧ dry ∧ CutShort m.entropyLen g.drbg.heard

variable {m : Mechanism} {g g' : Csprng (Overheard Generator) ε π} {log : List LogLine}

theorem Refreshing.renewed {c : Nat} {result : Except Halt Unit}
    (h : Refreshing g ⟨result, g', log⟩) (hg : Generator.Counted m c g.drbg.drbg)
    (hlen : g.entropyLen = m.entropyLen) :
    (result = .ok () ∧ Generator.Counted m 0 g'.drbg.drbg ∧ g'.entropyLen = m.entropyLen ∧
      g'.phase = .seeded ∧ ∃ seed, seed.length = m.entropyLen ∧
        g'.drbg.heard = g.drbg.heard ++ [(.reseed seed none, .ok [])]) ∨
    (result = .error (.entered .entropySourceFailure) ∧ g'.drbg.heard = g.drbg.heard ∧
      Exhausted g.entropy g.entropyLen g.maxRetry) := by
  cases h with
  | dry hdry => exact .inr ⟨rfl, rfl, hdry⟩
  | refused hseed hanswer =>
    have htaken := hg.reseed_taken (hseed.trans hlen)
    have hrefused : (g.drbg.drbg.reseed _ none).1 = .error _ :=
      congrArg Prod.fst (Overheard.reseed_run hanswer).1
    rw [htaken] at hrefused
    cases hrefused
  | @done seed source drbg _ hseed hanswer =>
    have htaken := hg.reseed_taken (hseed.trans hlen)
    obtain ⟨hrun, hheard⟩ := Overheard.reseed_run hanswer
    have hcounted := (hg.reseed htaken).1
    have hstate : (g.drbg.drbg.reseed seed none).2 = drbg.drbg := congrArg Prod.snd hrun
    rw [hstate] at hcounted
    exact .inl ⟨rfl, hcounted, hlen, rfl, seed, hseed.trans hlen, hheard⟩

theorem Renewing.sound {result : Except Halt Unit} (h : Renewing g ⟨result, g', log⟩)
    (hg : Sound m g) :
    Leaves m ((Policy.due g.policy).1 = true ∧ Exhausted g.entropy g.entropyLen g.maxRetry)
      result g' := by
  obtain ⟨c, hcounted⟩ := hg.counted
  cases h with
  | pending hdue hstep =>
    rw [hg.seeded] at hdue
    cases hdue
  | idle hdue hanswer => exact ⟨⟨c, hcounted⟩, hg.seedLen, hg.orderly, hg.seeded⟩
  | asked hdue hanswer hstep =>
    rcases hstep.renewed hcounted hg.seedLen with
      ⟨rfl, hrenewed, hlen, hseeded, seed, hseed, hheard⟩ | ⟨rfl, hheard, hdry⟩
    · exact ⟨⟨0, hrenewed⟩, hlen, hheard ▸ .renewed hseed hg.orderly, hseeded⟩
    · exact ⟨rfl, ⟨by rw [hanswer], hdry⟩, .inl (hheard ▸ hg.orderly)⟩

variable (hI : m.reseedInterval.toNat < 2 ^ 64 - 1) (hpos : m.reseedInterval ≠ 0)

include hI hpos in
theorem Drawing.sound {length : Nat} {result : Except Halt Bytes}
    (h : Drawing length g ⟨result, g', log⟩) (hg : Sound m g) (hlength : length ≤ Drbg.maxRequest) :
    Leaves m ((Drbg.generate g.drbg length none).1 = .error .drbgReseedRequired ∧
      Exhausted g.entropy g.entropyLen g.maxRetry) result g' := by
  obtain ⟨c, hcounted⟩ := hg.counted
  have hword : (CtrCall.generate length none).Addressable := Nat.lt_of_le_of_lt hlength (by decide)
  cases h with
  | served hanswer =>
    obtain ⟨hrun, hheard⟩ := Overheard.generate_run hanswer
    exact ⟨hcounted.next hI hword hrun, hg.seedLen, hheard ▸ .served hg.orderly,
      hg.seeded⟩
  | failed he hanswer =>
    have hrun := congrArg Prod.fst (Overheard.generate_run hanswer).1
    rcases hcounted.answers hI hlength with ⟨out, hout⟩ | hrequired
    · cases hrun.symm.trans hout
    · cases hrun.symm.trans hrequired
      exact absurd rfl he
  | halted hanswer hstep =>
    obtain ⟨hrun, hheard⟩ := Overheard.generate_run hanswer
    obtain ⟨c', hcounted'⟩ := hcounted.next hI hword hrun
    rcases hstep.renewed hcounted' hg.seedLen with ⟨hok, -⟩ | ⟨herror, hlater, hdry⟩
    · cases hok
    · refine ⟨Except.error.inj herror, ⟨by rw [hanswer], hdry⟩, ?_⟩
      exact .inr ⟨g.drbg.heard, length, hg.orderly, hlater.trans hheard⟩
  | retried hanswer hstep hagain =>
    obtain ⟨hrun, hheard⟩ := Overheard.generate_run hanswer
    obtain ⟨c', hcounted'⟩ := hcounted.next hI hword hrun
    rcases hstep.renewed hcounted' hg.seedLen with
      ⟨-, hrenewed, hlen, hseeded, seed, hseed, hlater⟩ | ⟨herror, -⟩
    · obtain ⟨hrun', hheard'⟩ := Overheard.generate_run hagain
      refine ⟨hrenewed.next hI hword hrun', hlen, ?_, hseeded⟩
      have hall := hheard'.trans (congrArg (· ++ _) (hlater.trans (congrArg (· ++ _) hheard)))
      simp only [List.append_assoc, List.singleton_append] at hall
      exact hall ▸ .retried hseed hg.orderly
    · cases herror
  | failedAgain hanswer hstep hagain =>
    obtain ⟨hrun, hheard⟩ := Overheard.generate_run hanswer
    obtain ⟨c', hcounted'⟩ := hcounted.next hI hword hrun
    rcases hstep.renewed hcounted' hg.seedLen with ⟨-, hrenewed, -⟩ | ⟨herror, -⟩
    · obtain ⟨out, hout⟩ := hrenewed.answers_renewed hI hpos hlength
      have hrun' := congrArg Prod.fst (Overheard.generate_run hagain).1
      cases hrun'.symm.trans hout
    · cases herror

include hI hpos in
theorem Refilling.sound {result : Except Halt Unit} (h : Refilling g ⟨result, g', log⟩)
    (hg : Sound m g) (hlength : g.cache.length ≤ Drbg.maxRequest) :
    Leaves m ((Drbg.generate g.drbg g.cache.length none).1 = .error .drbgReseedRequired ∧
      Exhausted g.entropy g.entropyLen g.maxRetry) result g' := by
  have hemptied : Sound m { g with cache := [] } := ⟨hg.counted, hg.seedLen, hg.orderly, hg.seeded⟩
  cases h with
  | done hstep =>
    have hdrawn : Sound m _ := hstep.sound hI hpos hemptied hlength
    exact ⟨hdrawn.counted, hdrawn.seedLen, hdrawn.orderly, hdrawn.seeded⟩
  | halted hstep => exact hstep.sound hI hpos hemptied hlength

include hI hpos in
theorem Serving.sound {wanted : Nat} {result : Except Halt Bytes}
    (h : Serving wanted g ⟨result, g', log⟩) (hg : Sound m g)
    (hcache : g.cache.length ≤ Drbg.maxRequest) (hrequest : g.maxRequest ≤ Drbg.maxRequest) :
    Leaves m (g.cache.length - g.cursor < wanted ∧
      (Drbg.generate g.drbg (called wanted g) none).1 = .error .drbgReseedRequired ∧
      Exhausted g.entropy g.entropyLen g.maxRetry) result g' := by
  cases h with
  | cached hheld => exact ⟨hg.counted, hg.seedLen, hg.orderly, hg.seeded⟩
  | refilled hmiss hroom hstep =>
    have hfilled : Sound m _ := hstep.sound hI hpos hg hcache
    exact ⟨hfilled.counted, hfilled.seedLen, hfilled.orderly, hfilled.seeded⟩
  | halted hmiss hroom hstep =>
    obtain ⟨hhalt, hdry, hcut⟩ := hstep.sound hI hpos hg hcache
    refine ⟨hhalt, ⟨hmiss, ?_⟩, hcut⟩
    rw [called, if_pos hroom]
    exact hdry
  | streamed hmiss hlong hstep =>
    have hdrawn := hstep.sound hI hpos hg (Nat.le_trans (Nat.min_le_right _ _) hrequest)
    cases result with
    | ok bytes => exact hdrawn
    | error halt =>
      obtain ⟨hhalt, hdry, hcut⟩ := hdrawn
      refine ⟨hhalt, ⟨hmiss, ?_⟩, hcut⟩
      rw [called, if_neg (Nat.not_lt.mpr hlong)]
      exact hdry

omit [EntropySource ε] in
/-- An explicit reseed may be refused, and then nothing has changed for the next request. -/
theorem Reseeding.sound (hI : m.reseedInterval.toNat < 2 ^ 64 - 1)
    {result : Except Halt (Except Fault Unit)} (h : Reseeding g ⟨result, g', log⟩)
    (hg : Sound m g) : Sound m g' := by
  obtain ⟨c, hcounted⟩ := hg.counted
  have hany : ∀ {seed nonce : Bytes} {answer : Except Fault Unit} {drbg : Overheard Generator},
      Drbg.reseed g.drbg seed (some nonce) = (answer, drbg) →
        (∃ c, Generator.Counted m c drbg.drbg) ∧ Orderly m.entropyLen drbg.heard := by
    intro seed nonce answer drbg hanswer
    obtain ⟨hrun, hheard⟩ := Overheard.reseed_run hanswer
    have hcall : Drbg.answer g.drbg.drbg (.reseed seed (some nonce)) =
        (answer.map fun _ => [], drbg.drbg) := by rw [Drbg.answer, hrun]
    have hword : (CtrCall.reseed seed (some nonce)).Addressable := trivial
    exact ⟨hcounted.next hI hword hcall, hheard ▸ .explicit seed nonce _ hg.orderly⟩
  cases h with
  | found hphase => exact hg
  | dry hphase => exact ⟨hg.counted, hg.seedLen, hg.orderly, hg.seeded⟩
  | refused hphase hanswer => exact ⟨(hany hanswer).1, hg.seedLen, (hany hanswer).2, hg.seeded⟩
  | done hphase hanswer => exact ⟨(hany hanswer).1, hg.seedLen, (hany hanswer).2, rfl⟩

variable {size limit : Nat} {J : Overheard Generator → Prop}

include hI hpos in
theorem pass_sound (hJ : Drbg.Upheld limit J) (hlive : Live size limit J g) (hsize : size ≤ limit)
    (hlimit : limit ≤ Drbg.maxRequest) (hg : Sound m g) (wanted : Nat) :
    Leaves m (PassDry wanted g) (pass wanted g).result (pass wanted g).state := by
  have hstep := passing wanted g
  rcases hpass : pass wanted g with ⟨result, g', log⟩
  rw [hpass] at hstep
  cases hstep with
  | found hphase =>
    rw [hlive.order.seeded] at hphase
    cases hphase
  | halted hphase hrun =>
    obtain ⟨hhalt, ⟨hdue, hdry⟩, hcut⟩ := (renewing_run hrun).sound hg
    exact ⟨hhalt, .asked hdue hdry, hcut⟩
  | @served _ g1 _ _ _ _ hphase hrun hstep =>
    have hlive1 := (renewing_run hrun).live hJ hlive
    have hg1 : Sound m g1 := (renewing_run hrun).sound hg
    have hcache : g1.cache.length ≤ Drbg.maxRequest := by
      rw [hlive1.order.sized]
      omega
    have hrequest : g1.maxRequest ≤ Drbg.maxRequest := by
      rw [hlive1.works.limited]
      exact hlimit
    have hserved := hstep.sound hI hpos hg1 hcache hrequest
    cases result with
    | ok bytes => exact hserved
    | error halt =>
      obtain ⟨hhalt, ⟨hmiss, hrequired, hdry⟩, hcut⟩ := hserved
      exact ⟨hhalt, .required hrun hmiss hrequired hdry, hcut⟩

/-! ## Requests and runs -/

include hI hpos in
theorem passes_sound (hJ : Drbg.Upheld limit J) (hone : 1 ≤ limit) (hsize : size ≤ limit)
    (hlimit : limit ≤ Drbg.maxRequest) (rounds wanted : Nat) (hlive : Live size limit J g)
    (hg : Sound m g) :
    Leaves m (RequestDry wanted g) (passes rounds wanted g).result
      (passes rounds wanted g).state := by
  induction rounds generalizing wanted g with
  | zero => exact hg
  | succ rounds ih =>
    by_cases hwanted : wanted = 0
    · subst hwanted
      exact hg
    unfold passes
    rw [if_neg hwanted]
    have hadvanced := pass_advanced wanted hJ hlive hone hsize
    have hsound := pass_sound hI hpos hJ hlive hsize hlimit hg wanted
    rcases hpass : pass wanted g with ⟨halt | bytes, g', log⟩
    · rw [hpass] at hsound
      obtain ⟨hhalt, hdry, hcut⟩ := hsound
      exact ⟨hhalt, .now hdry, hcut⟩
    · rw [hpass] at hadvanced hsound
      have hrest := ih (wanted - bytes.length) hadvanced.1 hsound
      simp only
      cases hresult : (passes rounds (wanted - bytes.length) g').result with
      | ok later =>
        rw [hresult] at hrest
        exact hrest
      | error halt =>
        rw [hresult] at hrest
        obtain ⟨hhalt, hdry, hcut⟩ := hrest
        exact ⟨hhalt, .later hpass hdry, hcut⟩

include hI hpos in
theorem act_sound (hJ : Drbg.Upheld limit J) (hone : 1 ≤ limit) (hsize : size ≤ limit)
    (hlimit : limit ≤ Drbg.maxRequest) (op : Locked) (hlive : Live size limit J g)
    (hg : Sound m g) :
    (Live size limit J (op.act g).state ∧ Sound m (op.act g).state) ∨
      ((op.act g).state.phase = .fatal ∧ CutShort m.entropyLen (op.act g).state.drbg.heard) := by
  cases op with
  | pass wanted =>
    have hadvanced := pass_advanced wanted hJ hlive hone hsize
    have hsound := pass_sound hI hpos hJ hlive hsize hlimit hg wanted
    change (Live size limit J (pass wanted g).state ∧ Sound m (pass wanted g).state) ∨
      ((pass wanted g).state.phase = .fatal ∧
        CutShort m.entropyLen (pass wanted g).state.drbg.heard)
    cases hresult : (pass wanted g).result with
    | ok bytes =>
      rw [hresult] at hadvanced hsound
      exact .inl ⟨hadvanced.1, hsound⟩
    | error halt =>
      rw [hresult] at hadvanced hsound
      exact .inr ⟨hadvanced.fatal, hsound.2.2⟩
  | reseed seed nonce =>
    rw [Locked.act, act_discards]
    exact .inl ⟨(reseeding seed nonce g).live hJ hlive, (reseeding seed nonce g).sound hI hg⟩
  | reseedViaSource nonce =>
    rw [Locked.act, act_discards]
    have hreseeding := reseedingViaSource nonce g
    exact .inl ⟨hreseeding.live hJ hlive, hreseeding.sound hI hg⟩

include hI hpos in
theorem run_sound (hJ : Drbg.Upheld limit J) (hone : 1 ≤ limit) (hsize : size ≤ limit)
    (hlimit : limit ≤ Drbg.maxRequest) (ops : List Locked) (hlive : Live size limit J g)
    (hg : Sound m g) :
    (Live size limit J (run ops g).2 ∧ Sound m (run ops g).2) ∨
      ((run ops g).2.phase = .fatal ∧ CutShort m.entropyLen (run ops g).2.drbg.heard) := by
  induction ops generalizing g with
  | nil => exact .inl ⟨hlive, hg⟩
  | cons op ops ih =>
    rcases act_sound hI hpos hJ hone hsize hlimit op hlive hg with ⟨hlive, hg⟩ | ⟨hfatal, hcut⟩
    · exact ih hlive hg
    · right
      change (run ops (op.act g).state).2.phase = .fatal ∧
        CutShort m.entropyLen (run ops (op.act g).state).2.drbg.heard
      rw [(finished hfatal).run]
      exact ⟨hfatal, hcut⟩

include hI hpos in
/-- A request after any run, as the recording generator has it. -/
theorem generate_sound (hJ : Drbg.Upheld limit J) (hone : 1 ≤ limit) (hsize : size ≤ limit)
    (hlimit : limit ≤ Drbg.maxRequest) (length : Nat)
    (hg : (Live size limit J g ∧ Sound m g) ∨
      (g.phase = .fatal ∧ CutShort m.entropyLen g.drbg.heard)) :
    (g.phase ≠ .fatal → (generate length g).state.phase = .fatal →
      (generate length g).result = .error (.entered .entropySourceFailure) ∧
        RequestDry length g) ∧
    ((generate length g).state.phase ≠ .fatal →
      Orderly m.entropyLen (generate length g).state.drbg.heard) ∧
    CutShort m.entropyLen (generate length g).state.drbg.heard := by
  rcases hg with ⟨hlive, hsound⟩ | ⟨hfatal, hcut⟩
  · have hleaves := passes_sound hI hpos hJ hone hsize hlimit length length hlive hsound
    obtain ⟨count, hfilling⟩ :=
      passes_filling hJ hone hsize length length (Nat.le_refl _) hlive
    rcases hfilling.ends with ⟨bytes, hok, -⟩ | ⟨⟨halt, herror⟩, hfatal⟩
    · rw [hok] at hleaves
      have hafter : Sound m (generate length g).state := hleaves
      refine ⟨fun _ hfatal => ?_, fun _ => hafter.orderly, .inl hafter.orderly⟩
      rw [hafter.seeded] at hfatal
      cases hfatal
    · rw [herror] at hleaves
      obtain ⟨rfl, hdry, hcut⟩ := hleaves
      exact ⟨fun _ _ => ⟨herror, hdry⟩, fun hnot => absurd hfatal hnot, hcut⟩
  · have hsame : (generate length g).state = g := by
      cases length with
      | zero => rfl
      | succ length => rw [(finished hfatal).generate]
    rw [hsame]
    exact ⟨fun hnot => absurd hfatal hnot, fun hnot => absurd hfatal hnot, hcut⟩

end

inductive Instantiated {ε π : Type} [EntropySource ε] (settings : CsprngSettings) :
    Csprng Generator ε π → Prop
  | create {entropy : ε} {policy : π} {seed nonce personalization : Bytes}
      {g : Csprng Generator ε π}
      (h : (create settings entropy policy seed nonce personalization).val = .ok g) :
      Instantiated settings g
  | ofEntropySource {entropy : ε} {policy : π} {personalization : Bytes} {g : Csprng Generator ε π}
      (h : (ofEntropySource settings entropy policy personalization).val.1 = .ok g) :
      Instantiated settings g

theorem Instantiated.fresh {ε π : Type} [EntropySource ε] {settings : CsprngSettings}
    {g : Csprng Generator ε π} (hg : Instantiated settings g) :
    (∃ seed nonce personalization,
      (settings.drbg.instantiate seed nonce personalization).val = .ok g.drbg) ∧
      Fresh settings g := by
  cases hg with
  | create h =>
    obtain ⟨hmade, hfresh⟩ := create_fresh h
    exact ⟨⟨_, _, _, hmade⟩, hfresh⟩
  | ofEntropySource h =>
    obtain ⟨source, seed, nonce, hcreate⟩ := ofEntropySource_created h
    obtain ⟨hmade, hfresh⟩ := create_fresh hcreate
    exact ⟨⟨_, _, _, hmade⟩, hfresh⟩

/-- The request that makes a manager fatal came to a reseed that was due and found the source
exhausted. No answer of the generator is the cause: all that was heard from it is in order, up to
the reseed that never came. -/
theorem fatal_only_when_dry {ε π : Type} [EntropySource ε] [Policy π] (settings : CsprngSettings)
    (hseed : settings.entropyLen = none)
    (hI : settings.drbg.reseedInterval.toNat < 2 ^ 64 - 1) (g : Csprng Generator ε π)
    (hg : Instantiated settings g) (ops : List Locked) (length : Nat) :
    let before := (run ops g).2
    let request := generate length before
    let recorded := (generate length (run ops g.overheard).2).state
    (before.phase ≠ .fatal → request.state.phase = .fatal →
      request.result = .error (.entered .entropySourceFailure) ∧ RequestDry length before) ∧
    recorded.plain = request.state ∧
    (request.state.phase ≠ .fatal → Orderly settings.drbg.entropyLen recorded.drbg.heard) ∧
    CutShort settings.drbg.entropyLen recorded.drbg.heard ∧
    (∀ asked additional e, (.generate asked additional, .error e) ∈ recorded.drbg.heard →
      e = .drbgReseedRequired) := by
  obtain ⟨⟨seed, nonce, personalization, hmade⟩, hfresh⟩ := hg.fresh
  obtain ⟨hfits, -, hpos⟩ := Mechanism.instantiate_fits hmade
  have hJ := Overheard.askedWithin_upheld (Drbg.reachable_upheld hfits.fills g.maxRequest)
  have hsize := Nat.min_le_right settings.cacheSize g.maxRequest
  have hlimit : g.maxRequest ≤ Drbg.maxRequest := hfresh.accepted
  have hsound : Sound settings.drbg g.overheard := by
    refine ⟨⟨0, Mechanism.instantiate_counted hmade⟩, ?_, .nil, hfresh.order.seeded⟩
    change g.entropyLen = settings.drbg.entropyLen
    rw [hfresh.seedLen, CsprngSettings.seedLen, hseed]
    rfl
  have hended := run_sound hI hpos hJ hfresh.positive hsize hlimit ops hfresh.overheard_live hsound
  have hplain : (run ops g.overheard).2.plain = (run ops g).2 := (run_heard ops g.overheard).2
  generalize (run ops g.overheard).2 = recorder at hplain hended
  obtain ⟨hdry, horderly, hcut⟩ :=
    generate_sound hI hpos hJ hfresh.positive hsize hlimit length hended
  obtain ⟨hresult, hstate, -⟩ := passes_heard length length recorder
  rw [hplain] at hresult hstate
  have hbefore : (run ops g).2.phase = recorder.phase := congrArg Csprng.phase hplain.symm
  have hafter : (generate length (run ops g).2).state.phase =
      (generate length recorder).state.phase := congrArg Csprng.phase hstate.symm
  rw [← hbefore, ← hafter] at hdry
  rw [← hafter] at horderly
  refine ⟨fun hnot hfatal => ?_, hstate, horderly, hcut, fun _ _ _ hmem => hcut.required hmem⟩
  obtain ⟨herror, hrequest⟩ := hdry hnot hfatal
  exact ⟨hresult.symm.trans herror, hplain ▸ hrequest.plain⟩

open Replay in
/-- The policy asks for a reseed and the source fails its only attempt. -/
theorem fatal_only_when_dry_sha256 :
    ∃ g : Csprng Generator Script (Policy.Custom AnswerList),
      Instantiated { drbg := .hmac .sha256 true 1, maxReseedRetry := 1 } g ∧
      (generate 20 g).result = .error (.entered .entropySourceFailure) ∧ RequestDry 20 g ∧
      CutShort 32 (generate 20 g.overheard).state.drbg.heard := by
  have hmade : (create { drbg := .hmac .sha256 true 1, maxReseedRetry := 1 } (Script.ofSteps [])
      (answerPolicy [true]) (Bytes.zeros 32) [] []).val = .ok _ := rfl
  obtain ⟨hdry, -, -, hcut, -⟩ := fatal_only_when_dry
    { drbg := .hmac .sha256 true 1, maxReseedRetry := 1 } rfl (by decide) _ (.create hmade) [] 20
  obtain ⟨hresult, hrequest⟩ := hdry (by decide +kernel) (by decide +kernel)
  exact ⟨_, .create hmade, hresult, hrequest, hcut⟩

end Csprng

end CryptoPrimitives
