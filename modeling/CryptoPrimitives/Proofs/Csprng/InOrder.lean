import CryptoPrimitives.Proofs.Csprng.Overheard
import CryptoPrimitives.Proofs.Csprng.Steps
import CryptoPrimitives.Proofs.Drbg.Generator

/-!
# Managers in order

Between two passes a manager that is not fatal has no reseed pending and a whole cache, wiped up to
the cursor. `Live` adds what holds of its generator and `Dead` is what a halt leaves; a step goes
from `Live` to one of them, and nothing leaves `Dead`.
-/

set_option autoImplicit false

namespace CryptoPrimitives

variable {δ ε π : Type}

structure Drbg.Upheld [Drbg δ] (limit : Nat) (J : δ → Prop) : Prop where
  generate : ∀ {d d' : δ} {length : Nat} {answer : Except Fault Bytes}, J d → 1 ≤ length →
    length ≤ limit → Drbg.generate d length none = (answer, d') → J d'
  fills : ∀ {d d' : δ} {length : Nat} {bytes : Bytes}, J d →
    Drbg.generate d length none = (.ok bytes, d') → bytes.length = length
  reseed : ∀ {d d' : δ} {seed : Bytes} {additional : Option Bytes} {answer : Except Fault Unit},
    J d → Drbg.reseed d seed additional = (answer, d') → J d'
  done : ∀ {d : δ}, J d → J (Drbg.done d)

namespace Csprng

structure InOrder (size : Nat) (g : Csprng δ ε π) : Prop where
  seeded : g.phase = .seeded
  sized : g.cache.length = size
  bounded : g.cursor ≤ g.cache.length
  wiped : g.cache.take g.cursor = Bytes.zeros g.cursor

structure Works (limit : Nat) (J : δ → Prop) (g : Csprng δ ε π) : Prop where
  upheld : J g.drbg
  limited : g.maxRequest = limit

structure Live (size limit : Nat) (J : δ → Prop) (g : Csprng δ ε π) : Prop where
  works : Works limit J g
  order : InOrder size g

structure Dead (limit : Nat) (J : δ → Prop) (g : Csprng δ ε π) : Prop where
  works : Works limit J g
  fatal : g.phase = .fatal

def Advanced (size limit : Nat) (J : δ → Prop) (wanted : Nat) :
    Except Halt Bytes → Csprng δ ε π → Prop
  | .ok bytes, g => Live size limit J g ∧ bytes.length ≤ wanted ∧ (1 ≤ wanted → 1 ≤ bytes.length)
  | .error _, g => Dead limit J g

/-! ## The cache -/

theorem inOrder_fresh {size : Nat} {g : Csprng δ ε π} (hphase : g.phase = .seeded)
    (hsized : g.cache.length = size) (hcursor : g.cursor = 0) : InOrder size g := by
  refine ⟨hphase, hsized, by omega, ?_⟩
  rw [hcursor, List.take_zero]
  rfl

def Tidied (g g' : Csprng δ ε π) : Prop :=
  (g'.cache = g.cache ∧ g'.cursor = g.cursor) ∨
    (g'.cache = Bytes.zeros g.cache.length ∧ g'.cursor = g.cache.length)

theorem InOrder.tidied {size : Nat} {g g' : Csprng δ ε π} (hg : InOrder size g)
    (hphase : g'.phase = .seeded) (h : Tidied g g') : InOrder size g' := by
  rcases h with ⟨hcache, hcursor⟩ | ⟨hcache, hcursor⟩
  · refine ⟨hphase, ?_, ?_, ?_⟩
    · rw [hcache]
      exact hg.sized
    · rw [hcache, hcursor]
      exact hg.bounded
    · rw [hcache, hcursor]
      exact hg.wiped
  · refine ⟨hphase, ?_, ?_, ?_⟩
    · rw [hcache, Bytes.length_zeros]
      exact hg.sized
    · rw [hcache, hcursor, Bytes.length_zeros]
    · rw [hcache, hcursor, List.take_of_length_le (Nat.le_of_eq (Bytes.length_zeros _))]

theorem InOrder.drained {size : Nat} {g : Csprng δ ε π} (hg : InOrder size g) {wanted : Nat}
    (h : wanted ≤ g.cache.length - g.cursor) : InOrder size (drain wanted g).state := by
  have hbounded := hg.bounded
  have hlength : (drain wanted g).state.cache.length = g.cache.length := by
    change (g.cache.take g.cursor ++ Bytes.zeros wanted ++
      (g.cache.drop g.cursor).drop wanted).length = g.cache.length
    simp only [List.length_append, List.length_take, Bytes.length_zeros, List.length_drop]
    omega
  refine ⟨hg.seeded, hlength.trans hg.sized, ?_, ?_⟩
  · rw [hlength]
    change g.cursor + wanted ≤ g.cache.length
    omega
  · change (g.cache.take g.cursor ++ Bytes.zeros wanted ++
      (g.cache.drop g.cursor).drop wanted).take (g.cursor + wanted) =
    Bytes.zeros (g.cursor + wanted)
    rw [hg.wiped, Bytes.zeros, Bytes.zeros, List.replicate_append_replicate, List.take_left']
    · rfl
    · exact List.length_replicate

theorem length_held {g : Csprng δ ε π} {wanted : Nat} (h : wanted ≤ g.cache.length - g.cursor) :
    ((g.cache.drop g.cursor).take wanted).length = wanted := by
  rw [List.length_take, List.length_drop]
  omega

/-! ## One step -/

theorem act_discards {α : Type} (x : Act δ ε π α) (g : Csprng δ ε π) :
    ((do let _ ← x; return [] : Act δ ε π Bytes) g).state = (x g).state := by
  rcases h : x g with ⟨_ | a, g', log⟩
  · rw [Action.bind_error h]
  · rw [Action.bind_ok h]
    rfl

section

variable [Drbg δ] [EntropySource ε] [Policy π] {size limit : Nat} {J : δ → Prop}
  {g g' : Csprng δ ε π} {log : List LogLine}

theorem Refreshing.works (h : Refreshing g ⟨.ok (), g', log⟩) (hJ : Drbg.Upheld limit J)
    (hg : Works limit J g) :
    Works limit J g' ∧ g'.phase = .seeded ∧ g'.cache = Bytes.zeros g.cache.length ∧
      g'.cursor = g.cache.length := by
  cases h with
  | done hseed hanswer => exact ⟨⟨hJ.reseed hg.upheld hanswer, hg.limited⟩, rfl, rfl, rfl⟩

theorem Refreshing.dead {halt : Halt} (h : Refreshing g ⟨.error halt, g', log⟩)
    (hJ : Drbg.Upheld limit J) (hg : Works limit J g) : Dead limit J g' := by
  cases h with
  | dry hdry => exact ⟨⟨hJ.done hg.upheld, hg.limited⟩, rfl⟩
  | refused hseed hanswer => exact ⟨⟨hJ.done (hJ.reseed hg.upheld hanswer), hg.limited⟩, rfl⟩

theorem Renewing.live (h : Renewing g ⟨.ok (), g', log⟩) (hJ : Drbg.Upheld limit J)
    (hg : Live size limit J g) : Live size limit J g' := by
  cases h with
  | pending hphase hstep =>
    rw [hg.order.seeded] at hphase
    cases hphase
  | idle hphase hdue => exact ⟨⟨hg.works.upheld, hg.works.limited⟩, hg.order.tidied
      hg.order.seeded (.inl ⟨rfl, rfl⟩)⟩
  | asked hphase hdue hstep =>
    obtain ⟨hworks, hseeded, hcache, hcursor⟩ :=
      hstep.works hJ ⟨hg.works.upheld, hg.works.limited⟩
    exact ⟨hworks, hg.order.tidied hseeded (.inr ⟨hcache, hcursor⟩)⟩

theorem Renewing.dead {halt : Halt} (h : Renewing g ⟨.error halt, g', log⟩)
    (hJ : Drbg.Upheld limit J) (hg : Works limit J g) : Dead limit J g' := by
  cases h with
  | pending hphase hstep => exact hstep.dead hJ ⟨hg.upheld, hg.limited⟩
  | asked hphase hdue hstep => exact hstep.dead hJ ⟨hg.upheld, hg.limited⟩

theorem Drawing.works {length : Nat} {bytes : Bytes} (h : Drawing length g ⟨.ok bytes, g', log⟩)
    (hJ : Drbg.Upheld limit J) (hg : Works limit J g) (hphase : g.phase = .seeded)
    (hone : 1 ≤ length) (hlimit : length ≤ limit) :
    Works limit J g' ∧ g'.phase = .seeded ∧ Tidied g g' ∧ bytes.length = length := by
  cases h with
  | served hanswer =>
    exact ⟨⟨hJ.generate hg.upheld hone hlimit hanswer, hg.limited⟩, hphase, .inl ⟨rfl, rfl⟩,
      hJ.fills hg.upheld hanswer⟩
  | retried hanswer hstep hagain =>
    obtain ⟨hworks, hseeded, hcache, hcursor⟩ :=
      hstep.works hJ ⟨hJ.generate hg.upheld hone hlimit hanswer, hg.limited⟩
    exact ⟨⟨hJ.generate hworks.upheld hone hlimit hagain, hworks.limited⟩, hseeded,
      .inr ⟨hcache, hcursor⟩, hJ.fills hworks.upheld hagain⟩

theorem Drawing.dead {length : Nat} {halt : Halt} (h : Drawing length g ⟨.error halt, g', log⟩)
    (hJ : Drbg.Upheld limit J) (hg : Works limit J g) (hone : 1 ≤ length)
    (hlimit : length ≤ limit) : Dead limit J g' := by
  cases h with
  | failed he hanswer =>
    exact ⟨⟨hJ.done (hJ.generate hg.upheld hone hlimit hanswer), hg.limited⟩, rfl⟩
  | halted hanswer hstep =>
    exact hstep.dead hJ ⟨hJ.generate hg.upheld hone hlimit hanswer, hg.limited⟩
  | failedAgain hanswer hstep hagain =>
    obtain ⟨hworks, -⟩ := hstep.works hJ ⟨hJ.generate hg.upheld hone hlimit hanswer, hg.limited⟩
    exact ⟨⟨hJ.done (hJ.generate hworks.upheld hone hlimit hagain), hworks.limited⟩, rfl⟩

theorem Refilling.live (h : Refilling g ⟨.ok (), g', log⟩) (hJ : Drbg.Upheld limit J)
    (hg : Live size limit J g) (hsize : size ≤ limit) (hone : 1 ≤ g.cache.length) :
    Live size limit J g' ∧ g'.cursor = 0 := by
  have hsized := hg.order.sized
  cases h with
  | done hstep =>
    obtain ⟨hworks, hseeded, -, hlength⟩ := hstep.works hJ
      ⟨hg.works.upheld, hg.works.limited⟩ hg.order.seeded hone (by omega)
    exact ⟨⟨⟨hworks.upheld, hworks.limited⟩, inOrder_fresh hseeded (hlength.trans hsized) rfl⟩, rfl⟩

theorem Refilling.dead {halt : Halt} (h : Refilling g ⟨.error halt, g', log⟩)
    (hJ : Drbg.Upheld limit J) (hg : Live size limit J g) (hsize : size ≤ limit)
    (hone : 1 ≤ g.cache.length) : Dead limit J g' := by
  have hsized := hg.order.sized
  cases h with
  | halted hstep => exact hstep.dead hJ ⟨hg.works.upheld, hg.works.limited⟩ hone (by omega)

omit [Drbg δ] [EntropySource ε] [Policy π] in
theorem Live.drained (hg : Live size limit J g) {wanted : Nat}
    (h : wanted ≤ g.cache.length - g.cursor) :
    Advanced size limit J wanted (.ok ((g.cache.drop g.cursor).take wanted))
      (drain wanted g).state := by
  refine ⟨⟨⟨hg.works.upheld, hg.works.limited⟩, hg.order.drained h⟩, ?_⟩
  rw [length_held h]
  exact ⟨Nat.le_refl _, id⟩

theorem Serving.advanced {wanted : Nat} {result : Except Halt Bytes}
    (h : Serving wanted g ⟨result, g', log⟩) (hJ : Drbg.Upheld limit J)
    (hg : Live size limit J g) (hlimit : 1 ≤ limit) (hsize : size ≤ limit) :
    Advanced size limit J wanted result g' := by
  have hsized := hg.order.sized
  have hlimited := hg.works.limited
  cases h with
  | cached hheld => exact hg.drained hheld
  | refilled hmiss hroom hstep =>
    obtain ⟨hlive, hcursor⟩ := hstep.live hJ hg hsize (by omega)
    apply hlive.drained
    rw [hcursor, hlive.order.sized]
    omega
  | halted hmiss hroom hstep => exact hstep.dead hJ hg hsize (by omega)
  | streamed hmiss hlong hstep =>
    cases result with
    | ok bytes =>
      obtain ⟨hworks, hseeded, htidied, hlength⟩ :=
        hstep.works hJ hg.works hg.order.seeded (by omega) (by omega)
      exact ⟨⟨hworks, hg.order.tidied hseeded htidied⟩, by omega, fun _ => by omega⟩
    | error halt => exact hstep.dead hJ hg.works (by omega) (by omega)

theorem Passing.advanced {wanted : Nat} {result : Except Halt Bytes}
    (h : Passing wanted g ⟨result, g', log⟩) (hJ : Drbg.Upheld limit J)
    (hg : Live size limit J g) (hlimit : 1 ≤ limit) (hsize : size ≤ limit) :
    Advanced size limit J wanted result g' := by
  cases h with
  | found hphase =>
    rw [hg.order.seeded] at hphase
    cases hphase
  | halted hphase hrun => exact (renewing_run hrun).dead hJ hg.works
  | served hphase hrun hstep =>
    exact hstep.advanced hJ ((renewing_run hrun).live hJ hg) hlimit hsize

theorem pass_advanced (wanted : Nat) (hJ : Drbg.Upheld limit J) (hg : Live size limit J g)
    (hlimit : 1 ≤ limit) (hsize : size ≤ limit) :
    Advanced size limit J wanted (pass wanted g).result (pass wanted g).state := by
  have hstep := passing wanted g
  rcases hrun : pass wanted g with ⟨result, g', log⟩
  rw [hrun] at hstep
  exact hstep.advanced hJ hg hlimit hsize

omit [EntropySource ε] in
/-- An explicit reseed neither halts nor leaves anything behind, whether it succeeds or not. -/
theorem Reseeding.live {result : Except Halt (Except Fault Unit)}
    (h : Reseeding g ⟨result, g', log⟩) (hJ : Drbg.Upheld limit J) (hg : Live size limit J g) :
    Live size limit J g' := by
  cases h with
  | found hphase => exact hg
  | dry hphase => exact ⟨⟨hg.works.upheld, hg.works.limited⟩, hg.order.tidied hg.order.seeded
      (.inl ⟨rfl, rfl⟩)⟩
  | refused hphase hanswer =>
    exact ⟨⟨hJ.reseed hg.works.upheld hanswer, hg.works.limited⟩, hg.order.tidied
      hg.order.seeded (.inl ⟨rfl, rfl⟩)⟩
  | done hphase hanswer =>
    exact ⟨⟨hJ.reseed hg.works.upheld hanswer, hg.works.limited⟩, hg.order.tidied rfl
      (.inr ⟨rfl, rfl⟩)⟩

/-! ## Runs -/

theorem act_live (op : Locked) (hJ : Drbg.Upheld limit J) (hg : Live size limit J g)
    (hlimit : 1 ≤ limit) (hsize : size ≤ limit) :
    Live size limit J (op.act g).state ∨ Dead limit J (op.act g).state := by
  cases op with
  | pass wanted =>
    have hstep := pass_advanced wanted hJ hg hlimit hsize
    change Live size limit J (pass wanted g).state ∨ Dead limit J (pass wanted g).state
    cases hresult : (pass wanted g).result with
    | ok bytes =>
      rw [hresult] at hstep
      exact .inl hstep.1
    | error halt =>
      rw [hresult] at hstep
      exact .inr hstep
  | reseed seed nonce =>
    rw [Locked.act, act_discards]
    exact .inl ((reseeding seed nonce g).live hJ hg)
  | reseedViaSource nonce =>
    rw [Locked.act, act_discards]
    exact .inl ((reseedingViaSource nonce g).live hJ hg)

end

structure Finished (g : Csprng δ ε π) : Prop where
  fatal : g.phase = .fatal
  generate : ∀ [Drbg δ] [EntropySource ε] [Policy π] (length : Nat),
    Csprng.generate (length + 1) g = ⟨.error .found, g, []⟩
  reseed : ∀ [Drbg δ] [Policy π] (seed nonce : Bytes),
    Csprng.reseed seed nonce g = ⟨.error .found, g, []⟩
  reseedViaSource : ∀ [Drbg δ] [EntropySource ε] [Policy π] (nonce : Bytes),
    Csprng.reseedViaSource nonce g = ⟨.error .found, g, []⟩
  run : ∀ [Drbg δ] [EntropySource ε] [Policy π] (ops : List Locked), Csprng.run ops g = ([], g)

theorem pass_found [Drbg δ] [EntropySource ε] [Policy π] {g : Csprng δ ε π}
    (hg : g.phase = .fatal) (wanted : Nat) : pass wanted g = ⟨.error .found, g, []⟩ :=
  Action.bind_error (by rw [enter_run, if_pos hg]) _

theorem reseed_found [Drbg δ] [Policy π] {g : Csprng δ ε π} (hg : g.phase = .fatal)
    (seed nonce : Bytes) : Csprng.reseed seed nonce g = ⟨.error .found, g, []⟩ :=
  Action.bind_error (by rw [enter_run, if_pos hg]) _

theorem reseedViaSource_found [Drbg δ] [EntropySource ε] [Policy π] {g : Csprng δ ε π}
    (hg : g.phase = .fatal) (nonce : Bytes) :
    Csprng.reseedViaSource nonce g = ⟨.error .found, g, []⟩ :=
  Action.bind_error (by rw [enter_run, if_pos hg]) _

theorem act_found [Drbg δ] [EntropySource ε] [Policy π] {g : Csprng δ ε π}
    (hg : g.phase = .fatal) (op : Locked) : op.act g = ⟨.error .found, g, []⟩ := by
  cases op with
  | pass wanted => exact pass_found hg wanted
  | reseed seed nonce => exact Action.bind_error (reseed_found hg seed nonce) _
  | reseedViaSource nonce => exact Action.bind_error (reseedViaSource_found hg nonce) _

theorem finished {g : Csprng δ ε π} (hg : g.phase = .fatal) : Finished g := by
  refine ⟨hg, ?_, reseed_found hg, reseedViaSource_found hg, ?_⟩
  · intro _ _ _ length
    unfold Csprng.generate passes
    rw [if_neg (Nat.succ_ne_zero length), pass_found hg]
  · intro _ _ _ ops
    induction ops with
    | nil => rfl
    | cons op ops ih =>
      rw [Csprng.run, Locked.bytes, act_found hg op, ih]
      rfl

theorem run_live [Drbg δ] [EntropySource ε] [Policy π] {size limit : Nat} {J : δ → Prop}
    (hJ : Drbg.Upheld limit J) (hlimit : 1 ≤ limit) (hsize : size ≤ limit) (ops : List Locked)
    {g : Csprng δ ε π} (hg : Live size limit J g) :
    Live size limit J (run ops g).2 ∨ Dead limit J (run ops g).2 := by
  induction ops generalizing g with
  | nil => exact .inl hg
  | cons op ops ih =>
    rcases act_live op hJ hg hlimit hsize with hlive | hdead
    · exact ih hlive
    · right
      change Dead limit J (run ops (op.act g).state).2
      rw [(finished hdead.fatal).run]
      exact hdead

end Csprng

end CryptoPrimitives
