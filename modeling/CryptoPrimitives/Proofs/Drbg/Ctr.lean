import CryptoPrimitives.Proofs.Drbg.Derivation

/-!
# Counter mode generators follow the standard

`Keyed` is the invariant of a generator: its schedule is that of its key, and key and counter block
have their lengths. It is kept by every call, and under it each accepted call does to key and
counter block what the standard says, with the standard's output.
-/

set_option autoImplicit false

namespace CryptoPrimitives

open CtrStandard

namespace CtrStandard

variable {keyLen : Nat} {E : Bytes → Bytes → Bytes}

theorem length_df (hE : ∀ key block, (E key block).length = 16) (input : Bytes) (wanted : Nat) :
    (df keyLen E input wanted).length = wanted := by
  rw [df, leftmost, List.length_take, whileShort_rounds _ fun x => hE _ x,
    length_rounds _ fun x => hE _ x]
  unfold ceilDiv
  omega

theorem length_padded (data : Bytes) (hdata : data.length ≤ seedLen keyLen) :
    (padded keyLen data).length = seedLen keyLen := by
  rw [padded, List.length_append, Bytes.length_zeros]
  omega

end CtrStandard

theorem Bytes.xor_comm (a b : Bytes) : Bytes.xor a b = Bytes.xor b a := by
  rw [Bytes.xor, Bytes.xor, List.zipWith_comm]
  simp only [UInt8.xor_comm]

theorem Bytes.length_xor (a b : Bytes) : (Bytes.xor a b).length = min a.length b.length :=
  List.length_zipWith

namespace CtrDrbg

variable {c : BlockCipher}

def state (d : CtrDrbg c) : State := ⟨d.key, d.v⟩

structure Keyed (d : CtrDrbg c) : Prop where
  schedule : d.schedule = c.expand d.key
  key_length : d.key.length = c.keyLen
  v_length : d.v.length = 16

theorem Keyed.count {d : CtrDrbg c} (hd : Keyed d) (counter : UInt64) :
    Keyed (c := c) { d with counter } :=
  ⟨hd.schedule, hd.key_length, hd.v_length⟩

/-! ## The keystream -/

theorem keystream_rounds (key : Bytes) (n : Nat) (v : Bytes) (hv : v.length = 16) :
    keystream c (c.expand key) n v = rounds (counterRound c.encrypt key) n v := by
  induction n generalizing v with
  | zero => rfl
  | succ n ih =>
    rw [keystream, nextCounter_increment v hv, ih _ (length_increment v), rounds]
    rfl

theorem whileShort_keystream (key : Bytes) (wanted : Nat) (v : Bytes) (hv : v.length = 16) :
    whileShort (counterRound c.encrypt key) wanted v =
      keystream c (c.expand key) (ceilDiv wanted 16) v := by
  rw [whileShort_rounds _ fun _ => c.length_encrypt _ _, keystream_rounds key _ v hv]

theorem length_keystream (schedule : Schedule) (n : Nat) (v : Bytes) :
    (keystream c schedule n v).1.length = 16 * n := by
  induction n generalizing v with
  | zero => rfl
  | succ n ih =>
    have hblock : (c.run schedule (nextCounter v)).length = 16 := c.length_run _ _
    rw [keystream, List.length_append, hblock, ih]
    ring

theorem length_keystream_counter (schedule : Schedule) (n : Nat) (v : Bytes) (hv : v.length = 16) :
    (keystream c schedule n v).2.length = 16 := by
  induction n generalizing v with
  | zero => exact hv
  | succ n ih =>
    rw [keystream]
    apply ih
    rw [nextCounter_increment v hv, length_increment]

/-! ## The update -/

theorem length_update_temp (d : CtrDrbg c) (provided : Bytes)
    (hp : provided.length = seedLen c) :
    (Bytes.xor ((keystream c d.schedule (ceilDiv (seedLen c) blockLen) d.v).1.take (seedLen c))
      provided).length = c.keyLen + 16 := by
  rw [Bytes.length_xor, List.length_take, length_keystream, hp]
  simp only [seedLen, blockLen, ceilDiv]
  omega

theorem Keyed.update {d : CtrDrbg c} (hd : Keyed d) {provided : Bytes}
    (hp : provided.length = seedLen c) :
    Keyed (d.update provided) ∧
      (d.update provided).state = CtrStandard.update c.keyLen c.encrypt provided d.state := by
  have htemp := length_update_temp d provided hp
  constructor
  · refine ⟨rfl, ?_, ?_⟩
    · change (List.take c.keyLen _).length = _
      rw [List.length_take, htemp]
      omega
    · change (List.drop c.keyLen _).length = _
      rw [List.length_drop, htemp]
      omega
  · have hstream : (whileShort (counterRound c.encrypt d.key) (seedLen c) d.v).1 =
        (keystream c d.schedule (ceilDiv (seedLen c) blockLen) d.v).1 := by
      rw [whileShort_keystream _ _ _ hd.v_length, hd.schedule]
      rfl
    have hstandard : CtrStandard.update c.keyLen c.encrypt provided d.state =
        ⟨leftmost c.keyLen (Bytes.xor ((whileShort (counterRound c.encrypt d.key) (seedLen c)
            d.v).1.take (seedLen c)) provided),
          rightmost 16 (Bytes.xor ((whileShort (counterRound c.encrypt d.key) (seedLen c)
            d.v).1.take (seedLen c)) provided)⟩ := by
      rw [← xorBytes_eq]
      rfl
    rw [hstandard, hstream, rightmost, htemp, Nat.add_sub_cancel]
    rfl

/-! ## Seed material -/

def Admits (c : BlockCipher) (useDf : Bool) (entropy : Bytes) (extra : List Bytes)
    (direct : Bytes) : Prop :=
  if useDf then (entropy :: extra).flatten.length < 2 ^ 32
  else entropy.length = seedLen c ∧ direct.length ≤ seedLen c

theorem toSeedLength_padded (data : Bytes) (hdata : data.length ≤ seedLen c) :
    toSeedLength c data = .ok (padded c.keyLen data) := by
  rw [toSeedLength, if_neg (Nat.not_lt.mpr hdata)]
  rfl

theorem length_padded_seed (data : Bytes) (hdata : data.length ≤ seedLen c) :
    (padded c.keyLen data).length = seedLen c := length_padded data hdata

theorem seedMaterial_admitted (hkey : c.keyLen ≤ 32) (useDf : Bool) (entropy : Bytes)
    (extra : List Bytes) (direct : Bytes) (ha : Admits c useDf entropy extra direct) :
    seedMaterial c useDf entropy extra direct =
      .ok (CtrStandard.seedMaterial c.keyLen c.encrypt useDf (entropy :: extra).flatten entropy
        direct) := by
  cases useDf with
  | true =>
    have hlen : (entropy :: extra).flatten.length < 2 ^ 32 := ha
    have hseed : seedLen c < 2 ^ 32 := by
      rw [seedLen, blockLen]
      omega
    exact c.derive_df hkey _ _ hlen hseed
  | false =>
    obtain ⟨hentropy, hdirect⟩ : entropy.length = seedLen c ∧ direct.length ≤ seedLen c := ha
    have hexact : ¬entropy.length ≠ seedLen c := fun h => h hentropy
    simp only [seedMaterial, Bool.false_eq_true, if_false, hexact, toSeedLength_padded _ hdirect]
    exact congrArg Except.ok ((Bytes.xor_comm _ _).trans (xorBytes_eq _ _).symm)

theorem seedMaterial_refused (useDf : Bool) (entropy : Bytes) (extra : List Bytes)
    (direct : Bytes) (ha : ¬Admits c useDf entropy extra direct) :
    seedMaterial c useDf entropy extra direct = .error .invalidInput := by
  cases useDf with
  | true =>
    have hlen : ¬(entropy :: extra).flatten.length < 2 ^ 32 := ha
    have hrefused : UInt32.size ≤ (entropy :: extra).flatten.length ∨ UInt32.size ≤ seedLen c :=
      .inl (Nat.le_of_not_lt hlen)
    rw [seedMaterial, if_pos rfl, BlockCipher.derive, if_pos hrefused]
  | false =>
    have hlen : ¬(entropy.length = seedLen c ∧ direct.length ≤ seedLen c) := ha
    rw [seedMaterial, if_neg Bool.false_ne_true]
    by_cases hentropy : entropy.length = seedLen c
    · have hdirect : seedLen c < direct.length :=
        Nat.lt_of_not_le fun h => hlen ⟨hentropy, h⟩
      rw [if_neg (fun h => h hentropy), toSeedLength, if_pos hdirect]
      rfl
    · rw [if_pos hentropy]

theorem length_seedMaterial (useDf : Bool) (entropy : Bytes) (extra : List Bytes)
    (direct : Bytes) (ha : Admits c useDf entropy extra direct) :
    (CtrStandard.seedMaterial c.keyLen c.encrypt useDf (entropy :: extra).flatten entropy
      direct).length = seedLen c := by
  cases useDf with
  | true => exact length_df c.length_encrypt _ _
  | false =>
    obtain ⟨hentropy, hdirect⟩ : entropy.length = seedLen c ∧ direct.length ≤ seedLen c := ha
    rw [CtrStandard.seedMaterial, if_neg Bool.false_ne_true, xorBytes_eq, Bytes.length_xor,
      hentropy, length_padded_seed _ hdirect, Nat.min_self]

/-! ## Instantiation and reseeds -/

theorem requireEntropy_iff (strict : Bool) (least length : Nat) :
    Drbg.requireEntropy strict least length = .ok () ↔ (strict = true → least ≤ length) := by
  unfold Drbg.requireEntropy
  cases strict <;> simp

def unseeded (c : BlockCipher) (useDf strict : Bool) (interval : UInt64) : CtrDrbg c where
  key := Bytes.zeros c.keyLen
  schedule := c.expand (Bytes.zeros c.keyLen)
  v := Bytes.zeros blockLen
  useDf := useDf
  counter := 0
  interval := interval
  strict := strict
  live := true

theorem unseeded_keyed (useDf strict : Bool) (interval : UInt64) :
    Keyed (unseeded c useDf strict interval) :=
  ⟨rfl, Bytes.length_zeros _, Bytes.length_zeros _⟩

theorem create_admitted (hkey : c.keyLen ≤ 32) (useDf strict : Bool) (interval : UInt64)
    (entropy nonce personalization : Bytes) (hs : strict = true → c.keyLen ≤ entropy.length)
    (ha : Admits c useDf entropy [nonce, personalization] personalization) :
    create c useDf strict interval entropy nonce personalization =
      .ok { (unseeded c useDf strict interval).update
        (CtrStandard.seedMaterial c.keyLen c.encrypt useDf
          (entropy ++ nonce ++ personalization) entropy personalization) with counter := 1 } := by
  have hinput : (entropy :: [nonce, personalization]).flatten =
      entropy ++ nonce ++ personalization := by simp
  unfold create
  rw [(requireEntropy_iff _ _ _).mpr hs, seedMaterial_admitted hkey _ _ _ _ ha, hinput]
  rfl

theorem create_accepted {useDf strict : Bool} {interval : UInt64}
    {entropy nonce personalization : Bytes} {d : CtrDrbg c}
    (h : create c useDf strict interval entropy nonce personalization = .ok d) :
    (strict = true → c.keyLen ≤ entropy.length) ∧
      Admits c useDf entropy [nonce, personalization] personalization := by
  unfold create at h
  cases hs : Drbg.requireEntropy strict c.keyLen entropy.length with
  | error e =>
    rw [hs] at h
    cases h
  | ok u =>
    refine ⟨(requireEntropy_iff _ _ _).mp hs, ?_⟩
    by_contra ha
    rw [hs, seedMaterial_refused _ _ _ _ ha] at h
    cases h

theorem create_refines (hkey : c.keyLen ≤ 32) (useDf strict : Bool) (interval : UInt64)
    (entropy nonce personalization : Bytes) (d : CtrDrbg c)
    (h : create c useDf strict interval entropy nonce personalization = .ok d) :
    Keyed d ∧ d.useDf = useDf ∧
      d.state = instantiate c.keyLen c.encrypt useDf entropy nonce personalization := by
  obtain ⟨hs, ha⟩ := create_accepted h
  rw [create_admitted hkey _ _ _ _ _ _ hs ha] at h
  cases h
  have hseed := length_seedMaterial useDf entropy [nonce, personalization] personalization ha
  have hinput : (entropy :: [nonce, personalization]).flatten =
      entropy ++ nonce ++ personalization := by simp
  rw [hinput] at hseed
  obtain ⟨hkeyed, hstate⟩ := (unseeded_keyed (c := c) useDf strict interval).update hseed
  exact ⟨hkeyed.count 1, rfl, hstate⟩

theorem seedMaterial_ok (hkey : c.keyLen ≤ 32) {useDf : Bool} {entropy : Bytes}
    {extra : List Bytes} {direct seed : Bytes}
    (h : seedMaterial c useDf entropy extra direct = .ok seed) :
    seed = CtrStandard.seedMaterial c.keyLen c.encrypt useDf (entropy :: extra).flatten entropy
        direct ∧ seed.length = seedLen c := by
  by_cases ha : Admits c useDf entropy extra direct
  · rw [seedMaterial_admitted hkey _ _ _ _ ha] at h
    cases h
    exact ⟨rfl, length_seedMaterial _ _ _ _ ha⟩
  · rw [seedMaterial_refused _ _ _ _ ha] at h
    cases h

theorem admitSeed_material {d : CtrDrbg c} {entropy additional seed : Bytes}
    (h : d.admitSeed entropy additional = .ok seed) :
    seedMaterial c d.useDf entropy [additional] additional = .ok seed := by
  unfold admitSeed at h
  cases hlive : Drbg.requireLive d.live with
  | error e =>
    rw [hlive] at h
    cases h
  | ok u =>
    cases hs : Drbg.requireEntropy d.strict c.keyLen entropy.length with
    | error e =>
      rw [hlive, hs] at h
      cases h
    | ok u =>
      rw [hlive, hs] at h
      exact h

/-- An accepted reseed is the standard's, and a refused one changes nothing. -/
theorem reseed_refines (hkey : c.keyLen ≤ 32) {d : CtrDrbg c} (hd : Keyed d) (entropy : Bytes)
    (additional : Option Bytes) :
    (∃ d', d.reseed entropy additional = (.ok (), d') ∧ Keyed d' ∧ d'.useDf = d.useDf ∧
      d'.state = CtrStandard.reseed c.keyLen c.encrypt d.useDf entropy (additional.getD [])
        d.state) ∨
      ∃ e, d.reseed entropy additional = (.error e, d) := by
  unfold reseed
  cases hseed : d.admitSeed entropy (additional.getD []) with
  | error e => exact .inr ⟨e, rfl⟩
  | ok seed =>
    obtain ⟨hmaterial, hlen⟩ := seedMaterial_ok hkey (admitSeed_material hseed)
    obtain ⟨hkeyed, hstate⟩ := hd.update hlen
    refine .inl ⟨_, rfl, hkeyed.count 1, rfl, ?_⟩
    have hinput : [entropy, additional.getD []].flatten = entropy ++ additional.getD [] := by simp
    rw [hinput] at hmaterial
    rw [CtrStandard.reseed, ← hmaterial]
    exact hstate

/-! ## Output -/

theorem additionalMaterial_ok (hkey : c.keyLen ≤ 32) {d : CtrDrbg c} {additional m : Bytes}
    (h : d.additionalMaterial additional = .ok m) :
    m = conditioned c.keyLen c.encrypt d.useDf additional ∧ m.length = seedLen c := by
  unfold additionalMaterial at h
  rw [conditioned]
  by_cases hnone : additional = []
  · subst hnone
    cases h
    exact ⟨rfl, Bytes.length_zeros _⟩
  rw [if_neg (by simpa using hnone)] at h
  rw [if_neg hnone]
  cases hdf : d.useDf with
  | true =>
    rw [hdf, if_pos rfl] at h
    rw [if_pos rfl]
    have hmaterial : seedMaterial c true additional [] [] = .ok m := h
    obtain ⟨hm, hlen⟩ := seedMaterial_ok hkey hmaterial
    rw [List.flatten_singleton] at hm
    exact ⟨hm, hlen⟩
  | false =>
    rw [hdf, if_neg Bool.false_ne_true] at h
    rw [if_neg Bool.false_ne_true]
    by_cases hlong : seedLen c < additional.length
    · rw [toSeedLength, if_pos hlong] at h
      cases h
    · rw [toSeedLength_padded _ (Nat.le_of_not_lt hlong)] at h
      cases h
      exact ⟨rfl, length_padded_seed _ (Nat.le_of_not_lt hlong)⟩

theorem generateCall_error {d : CtrDrbg c} {additional : Bytes} {e : Fault}
    (h : d.additionalMaterial additional = .error e) (length : Nat) :
    d.generateCall length additional = .error e := by
  unfold generateCall
  rw [h]
  rfl

def draw (d : CtrDrbg c) (conditioned : Bytes) (length : Nat) : Bytes × CtrDrbg c :=
  let stream := keystream c d.schedule (ceilDiv length blockLen) d.v
  let drawn : CtrDrbg c := { d with v := stream.2 }
  let next := drawn.update conditioned
  (stream.1.take length, { next with counter := next.counter + 1 })

theorem generateCall_draw {d : CtrDrbg c} {additional m : Bytes}
    (hm : d.additionalMaterial additional = .ok m) (length : Nat) :
    d.generateCall length additional =
      .ok ((if additional.isEmpty then d else d.update m).draw m length) := by
  unfold generateCall
  rw [hm]
  rfl

theorem Keyed.counted {d : CtrDrbg c} (hd : Keyed d) (n : Nat) :
    Keyed (c := c) { d with v := (keystream c d.schedule n d.v).2 } :=
  ⟨hd.schedule, hd.key_length, length_keystream_counter _ _ _ hd.v_length⟩

theorem Keyed.draw {d : CtrDrbg c} (hd : Keyed d) {m : Bytes} (hm : m.length = seedLen c)
    (length : Nat) :
    Keyed (d.draw m length).2 ∧ (d.draw m length).2.useDf = d.useDf ∧
      (d.draw m length).1 =
        leftmost length (whileShort (counterRound c.encrypt d.key) length d.v).1 ∧
      (d.draw m length).2.state = CtrStandard.update c.keyLen c.encrypt m
        ⟨d.key, (whileShort (counterRound c.encrypt d.key) length d.v).2⟩ := by
  rw [whileShort_keystream d.key length d.v hd.v_length, ← hd.schedule]
  obtain ⟨hkeyed, hstate⟩ := (hd.counted (ceilDiv length blockLen)).update hm
  exact ⟨hkeyed.count _, rfl, rfl, hstate⟩

/-- The state that additional input is mixed into, if there is any. -/
theorem Keyed.mixed {d : CtrDrbg c} (hd : Keyed d) {m : Bytes} (hm : m.length = seedLen c)
    (additional : Bytes) :
    Keyed (if additional.isEmpty then d else d.update m) ∧
      (if additional.isEmpty then d else d.update m).useDf = d.useDf ∧
      (if additional.isEmpty then d else d.update m).state =
        if additional = [] then d.state
        else CtrStandard.update c.keyLen c.encrypt m d.state := by
  cases additional with
  | nil => exact ⟨hd, rfl, rfl⟩
  | cons b bs =>
    obtain ⟨hkeyed, hstate⟩ := hd.update hm
    exact ⟨hkeyed, rfl, hstate⟩

/-- One call is the standard's. -/
theorem generateCall_refines (hkey : c.keyLen ≤ 32) {d : CtrDrbg c} (hd : Keyed d)
    {additional m : Bytes} (hm : d.additionalMaterial additional = .ok m) (length : Nat) :
    ∃ d', d.generateCall length additional =
        .ok ((CtrStandard.generate c.keyLen c.encrypt d.useDf length additional d.state).1, d') ∧
      Keyed d' ∧ d'.useDf = d.useDf ∧
      d'.state =
        (CtrStandard.generate c.keyLen c.encrypt d.useDf length additional d.state).2 := by
  obtain ⟨hcond, hlen⟩ := additionalMaterial_ok hkey hm
  obtain ⟨hkeyed1, hdf1, hstate1⟩ := hd.mixed hlen additional
  obtain ⟨hkeyed2, hdf2, hout, hstate2⟩ := hkeyed1.draw hlen length
  rw [generateCall_draw hm, CtrStandard.generate, ← hcond]
  dsimp only
  rw [← hstate1]
  exact ⟨_, congrArg Except.ok (Prod.ext hout rfl), hkeyed2, hdf2.trans hdf1, hstate2⟩

theorem generateCalls_refines (hkey : c.keyLen ≤ 32) {d : CtrDrbg c} (hd : Keyed d)
    {additional m : Bytes} (hm : d.additionalMaterial additional = .ok m) (lengths : List Nat) :
    ∃ d', generateCalls additional lengths d =
        (.ok (generateEach c.keyLen c.encrypt d.useDf additional lengths d.state).1, d') ∧
      Keyed d' ∧ d'.useDf = d.useDf ∧
      d'.state = (generateEach c.keyLen c.encrypt d.useDf additional lengths d.state).2 := by
  induction lengths generalizing d m with
  | nil => exact ⟨d, rfl, hd, rfl, rfl⟩
  | cons length lengths ih =>
    obtain ⟨d1, hcall, hkeyed1, hdf1, hstate1⟩ := generateCall_refines hkey hd hm length
    have hm1 : d1.additionalMaterial additional = .ok m := by
      rw [← hm, additionalMaterial, additionalMaterial, hdf1]
    obtain ⟨d2, hrest, hkeyed2, hdf2, hstate2⟩ := ih hkeyed1 hm1
    rw [hdf1, hstate1] at hrest hstate2
    refine ⟨d2, ?_, hkeyed2, hdf2.trans hdf1, hstate2⟩
    rw [generateCalls, hcall]
    simp only [hrest]
    rfl

theorem callLengths_cons (length : Nat) :
    ∃ first rest, Drbg.callLengths length = first :: rest := by
  unfold Drbg.callLengths
  by_cases hnone : length = 0
  · exact ⟨0, [], if_pos hnone⟩
  rw [if_neg hnone]
  cases hfull : length / Drbg.maxRequest with
  | zero =>
    have hrest : length % Drbg.maxRequest ≠ 0 := by
      simp only [Drbg.maxRequest] at hfull ⊢
      omega
    exact ⟨length % Drbg.maxRequest, [], by rw [if_neg hrest]; rfl⟩
  | succ n => exact ⟨Drbg.maxRequest, _, rfl⟩

/-- A request that one call serves. -/
theorem callLengths_single {length : Nat} (hlen : length ≤ Drbg.maxRequest) :
    Drbg.callLengths length = [length] := by
  unfold Drbg.callLengths
  by_cases hnone : length = 0
  · rw [if_pos hnone, hnone]
  rw [if_neg hnone]
  by_cases hfull : length = Drbg.maxRequest
  · rw [hfull, Nat.div_self (by decide), Nat.mod_self]
    rfl
  · have hlt : length < Drbg.maxRequest := Nat.lt_of_le_of_ne hlen hfull
    rw [Nat.div_eq_of_lt hlt, Nat.mod_eq_of_lt hlt, if_neg hnone]
    rfl

theorem generate_served {d : CtrDrbg c} {length : Nat} {additional : Option Bytes}
    (h : d.checkRequest length (additional.getD []) = .ok ()) :
    d.generate length additional =
      generateCalls (additional.getD []) (Drbg.callLengths length) d := by
  unfold generate
  simp only [h]

/-- An accepted request is the standard's, call by call, and a refused one changes nothing. -/
theorem generate_refines (hkey : c.keyLen ≤ 32) {d : CtrDrbg c} (hd : Keyed d) (length : Nat)
    (additional : Option Bytes) :
    (∃ d', d.generate length additional =
        (.ok (generateEach c.keyLen c.encrypt d.useDf (additional.getD [])
          (Drbg.callLengths length) d.state).1, d') ∧
      Keyed d' ∧ d'.useDf = d.useDf ∧
      d'.state = (generateEach c.keyLen c.encrypt d.useDf (additional.getD [])
        (Drbg.callLengths length) d.state).2) ∨
      ∃ e, d.generate length additional = (.error e, d) := by
  cases hcheck : d.checkRequest length (additional.getD []) with
  | error e =>
    right
    refine ⟨e, ?_⟩
    unfold generate
    simp only [hcheck]
  | ok u =>
    rw [generate_served hcheck]
    cases hm : d.additionalMaterial (additional.getD []) with
    | ok m => exact .inl (generateCalls_refines hkey hd hm _)
    | error e =>
      right
      obtain ⟨first, rest, hlengths⟩ := callLengths_cons length
      refine ⟨e, ?_⟩
      simp only [hlengths, generateCalls, generateCall_error hm]

/-! ## Reachable generators -/

inductive Reachable (c : BlockCipher) : CtrDrbg c → Prop
  | create {useDf strict : Bool} {interval : UInt64} {entropy nonce personalization : Bytes}
      {d : CtrDrbg c}
      (h : create c useDf strict interval entropy nonce personalization = .ok d) : Reachable c d
  | reseed {d : CtrDrbg c} (entropy : Bytes) (additional : Option Bytes) (h : Reachable c d) :
      Reachable c (d.reseed entropy additional).2
  | generate {d : CtrDrbg c} (length : Nat) (additional : Option Bytes) (h : Reachable c d) :
      Reachable c (d.generate length additional).2
  | done {d : CtrDrbg c} (h : Reachable c d) : Reachable c d.done

theorem Reachable.keyed (hkey : c.keyLen ≤ 32) {d : CtrDrbg c} (hd : Reachable c d) :
    Keyed d := by
  induction hd with
  | create h => exact (create_refines hkey _ _ _ _ _ _ _ h).1
  | reseed entropy additional h ih =>
    rcases reseed_refines hkey ih entropy additional with ⟨d', hd', hkeyed, -⟩ | ⟨e, he⟩
    · rw [hd']
      exact hkeyed
    · rw [he]
      exact ih
  | generate length additional h ih =>
    rcases generate_refines hkey ih length additional with ⟨d', hd', hkeyed, -⟩ | ⟨e, he⟩
    · rw [hd']
      exact hkeyed
    · rw [he]
      exact ih
  | done h ih =>
    refine ⟨rfl, ?_, ?_⟩
    · exact (Bytes.length_zeros _).trans ih.key_length
    · exact (Bytes.length_zeros _).trans ih.v_length

end CtrDrbg

end CryptoPrimitives
