import CryptoPrimitives.Proofs.Drbg.InPlace
import CryptoPrimitives.Proofs.Drbg.Interval

/-!
# Refused calls leave no trace

A generator is handed a buffer and serves a request into it step by step. Whatever refuses a call
does so before the first step that changes anything: the generator is the one before the call and
the buffer holds what it held. A wiped generator refuses every call from then on.
-/

set_option autoImplicit false

namespace CryptoPrimitives

def Mechanism.Reaches (m : Mechanism) : Generator → Prop :=
  Drbg.Reachable fun g => ∃ entropy nonce personalization,
    m.build entropy nonce personalization = .ok g

namespace Generator

/-! ## Well-formed generators -/

def Formed : Generator → Prop
  | hmac _ d => d.Formed
  | ctr _ d => d.Keyed

variable {m : Mechanism} {g : Generator}

theorem build_formed {entropy nonce personalization : Bytes}
    (h : m.build entropy nonce personalization = .ok g) : g.Formed := by
  cases m with
  | hmac digest strict interval =>
    simp only [Mechanism.build] at h
    cases hcreate : HmacDrbg.create digest.function strict interval entropy nonce
        personalization with
    | error e =>
      rw [hcreate] at h
      cases h
    | ok d =>
      rw [hcreate] at h
      cases h
      rw [(HmacDrbg.create_ok hcreate).2]
      exact HmacDrbg.seeded_formed _ _ _ _ _
  | ctr cipher useDf strict interval =>
    simp only [Mechanism.build] at h
    cases hcreate : CtrDrbg.create cipher.blockCipher useDf strict interval entropy nonce
        personalization with
    | error e =>
      rw [hcreate] at h
      cases h
    | ok d =>
      rw [hcreate] at h
      cases h
      exact (CtrDrbg.create_refines (CtrDrbg.keyLen_le cipher) _ _ _ _ _ _ d hcreate).1

theorem answer_hmac (alg : HashAlg) (d : HmacDrbg alg.function) (call : DrbgCall) :
    Drbg.answer (hmac alg d) call =
      ((Drbg.answer d call).1, hmac alg (Drbg.answer d call).2) := by
  cases call <;> rfl

theorem Formed.answer (hg : g.Formed) (call : DrbgCall) : (Drbg.answer g call).2.Formed := by
  cases g with
  | hmac alg d =>
    rw [answer_hmac]
    rcases HmacDrbg.Formed.answer hg call with ⟨d', h, hd', -⟩ | ⟨e, h⟩
    · rw [h]
      exact hd'
    · rw [h]
      exact hg
  | ctr alg d =>
    have hd : d.Keyed := hg
    cases call with
    | reseed entropy additional =>
      show (d.reseed entropy additional).2.Keyed
      rcases CtrDrbg.reseed_refines (CtrDrbg.keyLen_le alg) hd entropy additional with
        ⟨d', h, hd', -⟩ | ⟨e, h⟩
      · rw [h]
        exact hd'
      · rw [h]
        exact hd
    | generate length additional =>
      show (d.generate length additional).2.Keyed
      rcases CtrDrbg.generate_refines (CtrDrbg.keyLen_le alg) hd length additional with
        ⟨d', h, hd', -⟩ | ⟨e, h⟩
      · rw [h]
        exact hd'
      · rw [h]
        exact hd

theorem Formed.done (hg : g.Formed) : (Drbg.done g).Formed := by
  cases g with
  | hmac alg d => exact HmacDrbg.formed_done d
  | ctr alg d =>
    have hd : d.Keyed := hg
    exact ⟨rfl, (Bytes.length_zeros _).trans hd.key_length,
      (Bytes.length_zeros _).trans hd.v_length⟩

theorem reaches_formed (hg : m.Reaches g) : g.Formed := by
  induction hg with
  | made h =>
    obtain ⟨entropy, nonce, personalization, h⟩ := h
    exact build_formed h
  | answer call h ih => exact ih.answer call
  | done h ih => exact ih.done

theorem reaches_fits (hg : m.Reaches g) : Fits m g := by
  induction hg with
  | made h =>
    obtain ⟨entropy, nonce, personalization, h⟩ := h
    exact (Mechanism.build_fits h).1
  | answer call h ih => exact ih.answer call
  | done h ih => exact ih.done

/-! ## Into a buffer -/

structure Served where
  answer : Except Fault Unit
  drbg : Generator
  buffer : Bytes

def serve {δ : Type} (x : InPlace δ Unit) (d : δ) (whole : δ → Generator) (buffer : Bytes) :
    Served :=
  let (answer, s) := x.run ⟨d, []⟩
  ⟨answer, whole s.drbg, Bytes.overlay s.written buffer⟩

def generateInto : Generator → Bytes → Option Bytes → Served
  | hmac alg d, buffer, additional =>
    serve (HmacDrbg.generateInPlace buffer.length additional) d (hmac alg) buffer
  | ctr alg d, buffer, additional =>
    serve (CtrDrbg.generateInPlace buffer.length additional) d (ctr alg) buffer

def reseedInPlace : Generator → Bytes → Option Bytes → Except Fault Unit × Generator
  | hmac alg d, entropy, additional =>
    let (answer, s) := (HmacDrbg.reseedInPlace entropy additional).run ⟨d, []⟩
    (answer, hmac alg s.drbg)
  | ctr alg d, entropy, additional =>
    let (answer, s) := (CtrDrbg.reseedInPlace entropy additional).run ⟨d, []⟩
    (answer, ctr alg s.drbg)

def delivered (buffer : Bytes) : Except Fault Bytes × Generator → Served
  | (.ok bytes, g) => ⟨.ok (), g, bytes⟩
  | (.error e, g) => ⟨.error e, g, buffer⟩

theorem overlay_whole {bytes buffer : Bytes} (h : bytes.length = buffer.length) :
    Bytes.overlay bytes buffer = bytes := by
  rw [Bytes.overlay, ← h, List.take_length, h, List.drop_length, List.append_nil]

theorem overlay_nothing (buffer : Bytes) : Bytes.overlay [] buffer = buffer := by
  simp [Bytes.overlay]

theorem serve_landed {δ : Type} {x : InPlace δ Unit} {d : δ} {r : Except Fault Bytes × δ}
    (whole : δ → Generator) {buffer : Bytes} (hx : x.run ⟨d, []⟩ = InPlace.landed [] r)
    (hr : ∀ bytes, r.1 = .ok bytes → bytes.length = buffer.length) :
    serve x d whole buffer = delivered buffer (r.1, whole r.2) := by
  rw [serve, hx]
  obtain ⟨answer, d'⟩ := r
  cases answer with
  | error e =>
    show Served.mk _ _ (Bytes.overlay [] buffer) = _
    rw [overlay_nothing]
    rfl
  | ok bytes =>
    show Served.mk _ _ (Bytes.overlay bytes buffer) = _
    rw [overlay_whole (hr bytes rfl)]
    rfl

/-- A request served step by step ends as the one over values. -/
theorem generateInto_eq (hg : m.Reaches g) (buffer : Bytes) (additional : Option Bytes) :
    g.generateInto buffer additional = delivered buffer (g.generate buffer.length additional) := by
  have hfills := (reaches_fits hg).fills g (.made rfl) buffer.length additional
  have hformed := reaches_formed hg
  cases g with
  | hmac alg d => exact serve_landed (hmac alg) (HmacDrbg.Formed.run_generate hformed _ _) hfills
  | ctr alg d =>
    have hkey := CtrDrbg.keyLen_le alg
    exact serve_landed (ctr alg) (CtrDrbg.Keyed.run_generate hkey hformed _ _) hfills

theorem reseedInPlace_eq (hg : m.Reaches g) (entropy : Bytes) (additional : Option Bytes) :
    g.reseedInPlace entropy additional = g.reseed entropy additional := by
  have hformed := reaches_formed hg
  cases g with
  | hmac alg d =>
    rw [reseedInPlace, HmacDrbg.Formed.run_reseed hformed]
    rfl
  | ctr alg d =>
    rw [reseedInPlace, CtrDrbg.Keyed.run_reseed (CtrDrbg.keyLen_le alg) hformed]
    rfl

/-! ## Refusals -/

theorem reseed_unchanged (hg : m.Reaches g) {entropy : Bytes} {additional : Option Bytes}
    {e : Fault} (h : (g.reseed entropy additional).1 = .error e) :
    g.reseed entropy additional = (.error e, g) := by
  have hreseeded := (reaches_fits hg).reseeded entropy additional
  generalize g.reseed entropy additional = both at h hreseeded
  cases hreseeded with
  | refused => exact congrArg (·, g) h
  | seeded => cases h

theorem generate_unchanged (hg : m.Reaches g) {length : Nat} {additional : Option Bytes}
    {e : Fault} (h : (g.generate length additional).1 = .error e) :
    g.generate length additional = (.error e, g) := by
  have hgenerated := (reaches_fits hg).generated length additional
  generalize g.generate length additional = both at h hgenerated
  cases hgenerated with
  | refused => exact congrArg (·, g) h
  | unfit => exact congrArg (·, g) h
  | served => cases h

/-! ## Wiped generators -/

theorem reseed_dead (hg : g.status.live = false) (entropy : Bytes) (additional : Option Bytes) :
    g.reseed entropy additional = (.error .drbgInvalidState, g) := by
  cases g with
  | hmac alg d =>
    have hlive : d.live = false := hg
    have hadmit : d.admitSeed entropy = .error .drbgInvalidState := by
      rw [HmacDrbg.admitSeed, hlive]
      rfl
    rw [reseed, HmacDrbg.reseed, hadmit]
  | ctr alg d =>
    have hlive : d.live = false := hg
    have hadmit : d.admitSeed entropy (additional.getD []) = .error .drbgInvalidState := by
      rw [CtrDrbg.admitSeed, hlive]
      rfl
    rw [reseed, CtrDrbg.reseed, hadmit]

theorem generate_dead (hg : g.status.live = false) (length : Nat) (additional : Option Bytes) :
    g.generate length additional = (.error .drbgInvalidState, g) := by
  cases g with
  | hmac alg d =>
    have hlive : d.live ≠ true := by
      rw [show d.live = false from hg]
      decide
    rw [generate, HmacDrbg.generate_dead hlive]
  | ctr alg d =>
    have hcheck : d.status.check length = .error .drbgInvalidState := by
      rw [DrbgStatus.check, show d.status.live = false from hg]
      rfl
    rw [generate, CtrDrbg.generate_refused hcheck]

theorem answer_dead (hg : g.status.live = false) (call : DrbgCall) :
    Drbg.answer g call = (.error .drbgInvalidState, g) := by
  cases call with
  | reseed entropy additional =>
    show ((g.reseed entropy additional).1.map _, (g.reseed entropy additional).2) = _
    rw [reseed_dead hg]
    rfl
  | generate length additional => exact generate_dead hg length additional

theorem done_dead (g : Generator) : (Drbg.done g).status.live = false := by
  cases g <;> rfl

/-- Wiping again changes nothing. -/
theorem done_done (g : Generator) : Drbg.done (Drbg.done g) = Drbg.done g := by
  cases g with
  | hmac alg d => rfl
  | ctr alg d =>
    show ctr alg d.done.done = ctr alg d.done
    simp [CtrDrbg.done]

theorem after_done (g : Generator) {later : Generator}
    (h : Drbg.Reachable (· = Drbg.done g) later) : later = Drbg.done g := by
  induction h with
  | made h => exact h
  | answer call h ih => rw [answer_dead (ih ▸ done_dead g), ih]
  | done h ih => rw [ih, done_done]

theorem transcript_dead (hg : g.status.live = false) (calls : List DrbgCall) :
    Drbg.transcript calls g =
      (calls.map fun call => (call, .error .drbgInvalidState), g) := by
  induction calls with
  | nil => rfl
  | cons call calls ih => rw [Drbg.transcript, answer_dead hg, ih, List.map_cons]

/-- A refused reseed or request changes neither the generator nor the buffer, however many calls
the request would have taken; and after wiping every call is refused. The calls are those that keep
their half-done steps, and they end as the calls over values do. -/
theorem refusals_leave_no_trace (m : Mechanism) (g : Generator) (hg : m.Reaches g) :
    (∀ entropy additional,
      g.reseedInPlace entropy additional = g.reseed entropy additional ∧
        ∀ e, (g.reseedInPlace entropy additional).1 = .error e →
          g.reseedInPlace entropy additional = (.error e, g)) ∧
    (∀ buffer additional,
      g.generateInto buffer additional =
          delivered buffer (g.generate buffer.length additional) ∧
        ∀ e, (g.generateInto buffer additional).answer = .error e →
          g.generateInto buffer additional = ⟨.error e, g, buffer⟩) ∧
    (∀ later, Drbg.Reachable (· = Drbg.done g) later →
      (∀ entropy additional,
        later.reseedInPlace entropy additional = (.error .drbgInvalidState, later)) ∧
      ∀ buffer additional,
        later.generateInto buffer additional = ⟨.error .drbgInvalidState, later, buffer⟩) ∧
    ∀ calls, Drbg.transcript calls (Drbg.done g) =
      (calls.map fun call => (call, .error .drbgInvalidState), Drbg.done g) := by
  refine ⟨?reseeds, ?requests, ?wiped, fun calls => transcript_dead (done_dead g) calls⟩
  case reseeds =>
    intro entropy additional
    rw [reseedInPlace_eq hg]
    exact ⟨rfl, fun e h => reseed_unchanged hg h⟩
  case requests =>
    intro buffer additional
    rw [generateInto_eq hg]
    refine ⟨rfl, fun e h => ?_⟩
    cases hboth : (g.generate buffer.length additional).1 with
    | error e' =>
      rw [generate_unchanged hg hboth] at h ⊢
      rw [show e' = e from Except.error.inj h]
      rfl
    | ok bytes =>
      rw [← Prod.eta (g.generate buffer.length additional), hboth] at h
      cases h
  case wiped =>
    intro later hlater
    have hsame := after_done g hlater
    have hreaches : m.Reaches later := hsame ▸ .done hg
    have hdead : later.status.live = false := hsame ▸ done_dead g
    constructor
    · intro entropy additional
      rw [reseedInPlace_eq hreaches, reseed_dead hdead]
    · intro buffer additional
      rw [generateInto_eq hreaches, generate_dead hdead]
      rfl

/-- Two calls' worth of bytes with an interval of one, and additional input past the seed length. -/
theorem refusals_leave_no_trace_aes128 :
    ∃ g, (Mechanism.ctr .aes128 false false 1).build (Bytes.zeros 32) [] [] = .ok g ∧
      (Mechanism.ctr .aes128 false false 1).Reaches g ∧
      g.generateInto (List.replicate 65537 7) none =
        ⟨.error .drbgReseedRequired, g, List.replicate 65537 7⟩ ∧
      g.generateInto [1, 2, 3] (some (Bytes.zeros 33)) = ⟨.error .invalidInput, g, [1, 2, 3]⟩ := by
  have hmade : (Mechanism.ctr .aes128 false false 1).build (Bytes.zeros 32) [] [] = .ok _ := rfl
  have hreaches : (Mechanism.ctr .aes128 false false 1).Reaches _ := .made ⟨_, _, _, hmade⟩
  obtain ⟨-, hrequests, -⟩ := refusals_leave_no_trace _ _ hreaches
  obtain ⟨hlong, hlongRefused⟩ := hrequests (List.replicate 65537 7) none
  obtain ⟨hwide, hwideRefused⟩ := hrequests [1, 2, 3] (some (Bytes.zeros 33))
  rw [List.length_replicate] at hlong
  refine ⟨_, hmade, hreaches, hlongRefused .drbgReseedRequired ?_,
    hwideRefused .invalidInput ?_⟩
  · rw [hlong]
    rfl
  · rw [hwide]
    rfl

end Generator

end CryptoPrimitives
