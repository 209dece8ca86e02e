import CryptoPrimitives.Proofs.Csprng.Observed
import CryptoPrimitives.Proofs.Csprng.Passes
import CryptoPrimitives.Proofs.Csprng.Requests
import CryptoPrimitives.Proofs.Entropy.Attempts

/-!
# A request and its parts

As long as the policy does not ask for a reseed, it makes no difference whether bytes are requested
at once or in parts, if the cache holds them all, or if it is used up and has room for them all. The
generator and the source are called alike, and only the policy has been asked more or less often.
-/

set_option autoImplicit false

namespace CryptoPrimitives

variable {δ ε π : Type}

structure Attended (ε : Type) where
  source : ε
  reads : List EntropyRead

instance [EntropySource ε] : EntropySource (Attended ε) where
  read s buffer := do
    let (delivery, source) ← EntropySource.read s.source buffer
    return (delivery, ⟨source, s.reads ++ [⟨buffer, delivery⟩]⟩)

theorem Attended.matched [EntropySource ε] :
    EntropySource.Matched (fun (s : Attended ε) s' => s.source = s') fun _ => False where
  read := by
    rintro s s' buffer rfl
    exact .inr ⟨rfl, rfl, List.append_nil _⟩
  stays := fun _ => id

namespace Csprng

open CryptoPrimitives.Action

def attended (g : Csprng δ ε π) : Csprng (Overheard δ) (Attended ε) π :=
  { g with drbg := ⟨g.drbg, []⟩, entropy := ⟨g.entropy, []⟩ }

def unattended (g : Csprng (Overheard δ) (Attended ε) π) : Csprng δ ε π :=
  image Overheard.drbg Attended.source id g

section

variable [Drbg δ] [EntropySource ε] [Policy π]

def generateEach : List Nat → Act δ ε π Bytes
  | [] => pure []
  | length :: lengths => do
    let bytes ← generate length
    let rest ← generateEach lengths
    return bytes ++ rest

def Unasked : List Nat → Csprng δ ε π → Prop
  | [], _ => True
  | length :: lengths, g =>
    (length ≠ 0 → (Policy.due g.policy).1 = false) ∧ Unasked lengths (generate length g).state

variable {g : Csprng δ ε π}

theorem generateEach_zero (lengths : List Nat) (g : Csprng δ ε π) :
    generateEach (0 :: lengths) g = generateEach lengths g := by
  have hnone : generate 0 g = ⟨.ok [], g, []⟩ := rfl
  rw [generateEach, bind_ok hnone]
  exact congrFun (bind_pure (generateEach lengths)) g

theorem generateEach_fatal (hg : g.phase = .fatal) (lengths : List Nat) :
    generateEach lengths g = generate lengths.sum g := by
  induction lengths with
  | nil => rfl
  | cons length lengths ih =>
    cases length with
    | zero => rw [generateEach_zero, ih, List.sum_cons, Nat.zero_add]
    | succ length =>
      rw [List.sum_cons, Nat.succ_add, (finished hg).generate]
      exact bind_error ((finished hg).generate length) _

theorem Unasked.first {lengths : List Nat} (h : Unasked lengths g) (hsome : lengths.sum ≠ 0) :
    (Policy.due g.policy).1 = false := by
  induction lengths with
  | nil => exact absurd rfl hsome
  | cons length lengths ih =>
    by_cases hlength : length = 0
    · subst hlength
      rw [List.sum_cons, Nat.zero_add] at hsome
      exact ih h.2 hsome
    · exact h.1 hlength

omit [Policy π] in
theorem unasked_never (lengths : List Nat) (g : Csprng δ ε Policy.Never) : Unasked lengths g := by
  induction lengths generalizing g with
  | nil => trivial
  | cons length lengths ih => exact ⟨fun _ => rfl, ih _⟩

/-! ## Bytes that the cache holds -/

theorem generate_held {length : Nat} (hphase : g.phase = .seeded)
    (hdue : length ≠ 0 → (Policy.due g.policy).1 = false) (hheld : length ≤ g.available) :
    ∃ g', unruled g' = drained length (unruled g) ∧
      generate length g = ⟨.ok ((g.cache.drop g.cursor).take length), g', []⟩ := by
  by_cases hlength : length = 0
  · subst hlength
    exact ⟨g, drained_zero.symm, rfl⟩
  have hpass : pass length g =
      ⟨.ok ((g.cache.drop g.cursor).take length), drained length g.polled, []⟩ := by
    rw [pass_polled hphase (hdue hlength), serve, get_bind]
    rw [if_pos (show length ≤ g.polled.cache.length - g.polled.cursor from hheld), drain_run]
    rfl
  refine ⟨drained length g.polled, rfl, ?_⟩
  rw [generate_pass hlength, hpass]
  intro bytes hbytes
  rw [hpass] at hbytes
  cases hbytes
  exact length_held hheld

theorem held_requests (lengths : List Nat) (hphase : g.phase = .seeded)
    (hbounded : g.cursor ≤ g.cache.length) (hheld : lengths.sum ≤ g.available)
    (hunasked : Unasked lengths g) :
    ∃ g', unruled g' = drained lengths.sum (unruled g) ∧
      generateEach lengths g = ⟨.ok ((g.cache.drop g.cursor).take lengths.sum), g', []⟩ := by
  induction lengths generalizing g with
  | nil => exact ⟨g, drained_zero.symm, rfl⟩
  | cons length lengths ih =>
    obtain ⟨hdue, hlater⟩ := hunasked
    rw [List.sum_cons] at hheld ⊢
    obtain ⟨g1, hstate, hrun⟩ := generate_held hphase hdue (by omega)
    have hspent := spent hbounded hstate
    rw [hrun] at hlater
    obtain ⟨g2, hstate', hrest⟩ := ih (hspent.phase.trans hphase) hspent.bounded
      (by rw [hspent.available]; omega) hlater
    refine ⟨g2, ?_, ?_⟩
    · rw [hstate', hstate]
      exact drained_drained hbounded
    · rw [generateEach, bind_ok hrun, bind_ok hrest, hspent.held, List.take_add]
      rfl

/-! ## Bytes that the cache has room for -/

variable {size limit : Nat} {J : δ → Prop}

/-- A cache's worth of bytes, drawn without the cache. -/
theorem drawn (hJ : Drbg.Upheld limit J) (hg : Live size limit J g) (hsize : size ≤ limit)
    (hone : 1 ≤ g.cache.length) {bytes : Bytes} {d : Csprng δ ε π} {log : List LogLine}
    (hrun : draw g.cache.length (bare g.polled) = ⟨.ok bytes, d, log⟩) :
    bytes.length = g.cache.length ∧ d.phase = .seeded := by
  have hsized := hg.order.sized
  have hdrawing := drawing g.cache.length (bare g.polled)
  rw [hrun] at hdrawing
  obtain ⟨-, hseeded, -, hlength⟩ := hdrawing.works hJ ⟨hg.works.upheld, hg.works.limited⟩
    hg.order.seeded hone (by omega)
  exact ⟨hlength, hseeded⟩

theorem generate_furnished (hJ : Drbg.Upheld limit J) (hg : Live size limit J g)
    (hsize : size ≤ limit) (hspent : g.available = 0) {length : Nat} (hlength : length ≠ 0)
    (hfit : length ≤ g.cache.length) (hdue : (Policy.due g.policy).1 = false) :
    Furnished length (draw g.cache.length (bare g.polled)) (generate length g) := by
  have hpolled : Live size limit J g.polled :=
    ⟨⟨hg.works.upheld, hg.works.limited⟩,
      hg.order.tidied hg.order.seeded (.inl ⟨rfl, rfl⟩)⟩
  have hserve : Furnished length (draw g.cache.length (bare g.polled)) (serve length g.polled) :=
    serve_furnished hJ hpolled hsize hspent (Nat.pos_of_ne_zero hlength) hfit
  have hpass := pass_polled hg.order.seeded hdue length
  rw [generate_pass hlength, hpass]
  · exact hserve
  intro handed hhanded
  rw [hpass] at hhanded
  rcases hdraw : draw g.cache.length (bare g.polled) with ⟨result, d, log⟩
  rcases hrun : serve length g.polled with ⟨result', g', log'⟩
  rw [hdraw, hrun] at hserve
  rw [hrun] at hhanded
  cases hserve with
  | halted => cases hhanded
  | served hbytes =>
    cases hhanded
    obtain ⟨hdrawn, -⟩ := drawn hJ hg hsize (by omega) hdraw
    rw [hbytes, List.length_take, hdrawn]
    omega

/-- The first request that is not empty draws a cache's worth, and the later ones live on it. -/
theorem spent_requests (hJ : Drbg.Upheld limit J) (hsize : size ≤ limit) (lengths : List Nat)
    (hg : Live size limit J g) (hspent : g.available = 0) (hsome : lengths.sum ≠ 0)
    (hfit : lengths.sum ≤ g.cache.length) (hunasked : Unasked lengths g) :
    Furnished lengths.sum (draw g.cache.length (bare g.polled)) (generateEach lengths g) := by
  induction lengths with
  | nil => exact absurd rfl hsome
  | cons length lengths ih =>
    rw [List.sum_cons] at hsome hfit ⊢
    by_cases hlength : length = 0
    · subst hlength
      rw [Nat.zero_add] at hsome hfit ⊢
      rw [generateEach_zero]
      exact ih hsome hfit hunasked.2
    obtain ⟨hdue, hlater⟩ := hunasked
    have hfirst := generate_furnished hJ hg hsize hspent hlength (by omega) (hdue hlength)
    rcases hdraw : draw g.cache.length (bare g.polled) with ⟨result, d, log⟩
    rcases hrun : generate length g with ⟨result', g', log'⟩
    rw [hdraw, hrun] at hfirst
    cases hfirst with
    | halted hstate =>
      rw [generateEach, bind_error hrun]
      exact .halted hstate
    | @served bytes handed _ _ _ _ hbytes hstate =>
      obtain ⟨hdrawn, hseeded⟩ := drawn hJ hg hsize (by omega) hdraw
      have hleft := spent (g := filled bytes { d with policy := g'.policy }) (Nat.zero_le _) hstate
      have hheld : lengths.sum ≤ g'.available := by
        rw [hleft.available]
        change lengths.sum ≤ bytes.length - 0 - length
        omega
      rw [hrun] at hlater
      obtain ⟨g'', hstate', hrest⟩ :=
        held_requests lengths (hleft.phase.trans hseeded) hleft.bounded hheld hlater
      rw [generateEach, bind_ok hrun, bind_ok hrest, hleft.held, hbytes]
      refine .served List.take_add.symm ?_
      change unruled g'' = _
      rw [hstate', hstate]
      exact drained_drained (Nat.zero_le _)

/-! ## At once and in parts -/

structure Alike (u v : Step (Csprng δ ε π) Bytes) : Prop where
  result : u.result = v.result
  drbg : u.state.drbg = v.state.drbg
  entropy : u.state.entropy = v.state.entropy
  state : ∀ bytes, u.result = .ok bytes → unruled u.state = unruled v.state

omit [Drbg δ] [EntropySource ε] [Policy π] in
theorem Furnished.alike {wanted : Nat} {u v w : Step (Csprng δ ε π) Bytes}
    (hu : Furnished wanted w u) (hv : Furnished wanted w v) : Alike u v := by
  cases hu with
  | halted hstate =>
    cases hv with
    | halted hstate' =>
      have hsame := hstate.trans hstate'.symm
      refine ⟨rfl, (congrArg Csprng.drbg hsame :), (congrArg Csprng.entropy hsame :), ?_⟩
      intro bytes hbytes
      cases hbytes
  | served hbytes hstate =>
    cases hv with
    | served hbytes' hstate' =>
      have hsame := hstate.trans hstate'.symm
      refine ⟨?_, (congrArg Csprng.drbg hsame :), (congrArg Csprng.entropy hsame :), ?_⟩
      · rw [hbytes, hbytes']
      · exact fun _ _ => hsame

theorem requests_alike (hJ : Drbg.Upheld limit J) (hsize : size ≤ limit)
    (hg : Live size limit J g ∨ Dead limit J g) (lengths : List Nat)
    (hroom : lengths.sum ≤ g.available ∨ g.available = 0 ∧ lengths.sum ≤ g.cache.length)
    (hunasked : Unasked lengths g) :
    Alike (generateEach lengths g) (generate lengths.sum g) := by
  rcases hg with hlive | hdead
  · by_cases hheld : lengths.sum ≤ g.available
    · obtain ⟨g1, hstate, hsplit⟩ :=
        held_requests lengths hlive.order.seeded hlive.order.bounded hheld hunasked
      obtain ⟨g2, hstate', hwhole⟩ := generate_held hlive.order.seeded hunasked.first hheld
      have hsame := hstate.trans hstate'.symm
      rw [hsplit, hwhole]
      exact ⟨rfl, (congrArg Csprng.drbg hsame :), (congrArg Csprng.entropy hsame :),
        fun _ _ => hsame⟩
    · obtain ⟨hspent, hfit⟩ := hroom.resolve_left hheld
      have hsome : lengths.sum ≠ 0 := by omega
      exact (spent_requests hJ hsize lengths hlive hspent hsome hfit hunasked).alike
        (generate_furnished hJ hlive hsize hspent hsome hfit (hunasked.first hsome))
  · rw [generateEach_fatal hdead.fatal]
    exact ⟨rfl, rfl, rfl, fun _ _ => rfl⟩

theorem length_generate (hJ : Drbg.Upheld limit J) (hlimit : 1 ≤ limit) (hsize : size ≤ limit)
    (hg : Live size limit J g ∨ Dead limit J g) {length : Nat} {bytes : Bytes}
    (hbytes : (generate length g).result = .ok bytes) : bytes.length = length := by
  rcases hg with hlive | hdead
  · obtain ⟨count, hfilling⟩ :=
      passes_filling hJ hlimit hsize length length (Nat.le_refl _) hlive
    rcases hfilling.ends with ⟨whole, hwhole, hlength⟩ | ⟨⟨halt, herror⟩, -⟩
    · cases hwhole.symm.trans hbytes
      exact hlength
    · cases herror.symm.trans hbytes
  · cases length with
    | zero =>
      cases hbytes
      rfl
    | succ length =>
      rw [(finished hdead.fatal).generate] at hbytes
      cases hbytes

/-! ## The calls that are made -/

theorem attended_lawful :
    (Ties.images Overheard.drbg Attended.source id :
      Ties (Overheard δ) δ (Attended ε) ε π π).Lawful :=
  ⟨Overheard.matched, Attended.matched, Policy.matched_id⟩

theorem generate_attended (length : Nat) :
    Simulates unattended (generate length : Act (Overheard δ) (Attended ε) π Bytes)
      (generate length) :=
  (generate_coupled attended_lawful length).simulates

theorem generateEach_attended (lengths : List Nat) :
    Simulates unattended (generateEach lengths : Act (Overheard δ) (Attended ε) π Bytes)
      (generateEach lengths) := by
  induction lengths with
  | nil => exact simulates_pure []
  | cons length lengths ih =>
    refine (generate_attended length).bind fun bytes => ih.bind fun rest => ?_
    exact simulates_pure (bytes ++ rest)

theorem Unasked.attended {lengths : List Nat} {g : Csprng (Overheard δ) (Attended ε) π}
    (h : Unasked lengths (unattended g)) : Unasked lengths g := by
  induction lengths generalizing g with
  | nil => trivial
  | cons length lengths ih =>
    obtain ⟨hdue, hlater⟩ := h
    rw [← (generate_attended length g).2.1] at hlater
    exact ⟨hdue, ih hlater⟩

omit [Drbg δ] [EntropySource ε] [Policy π] in
theorem attended_live (hg : Live size limit J g ∨ Dead limit J g) :
    Live size limit (fun d : Overheard δ => J d.drbg ∧ d.AskedWithin limit) g.attended ∨
      Dead limit (fun d : Overheard δ => J d.drbg ∧ d.AskedWithin limit) g.attended := by
  have hworks : ∀ hg : Works limit J g,
      Works limit (fun d : Overheard δ => J d.drbg ∧ d.AskedWithin limit) g.attended :=
    fun hg => ⟨⟨hg.upheld, fun _ _ _ hmem => absurd hmem List.not_mem_nil⟩, hg.limited⟩
  exact hg.imp
    (fun hlive => ⟨hworks hlive.works,
      ⟨hlive.order.seeded, hlive.order.sized, hlive.order.bounded, hlive.order.wiped⟩⟩)
    fun hdead => ⟨hworks hdead.works, hdead.fatal⟩

end

/-- Bytes requested in parts, while the policy does not ask for a reseed, are what one request for
all of them brings, if the cache holds them, or is used up and has room for them. The manager that
is left is the same but for the policy, and the generator and the source see the same calls. -/
theorem split_requests_alike [Drbg δ] [EntropySource ε] [Policy π] (settings : CsprngSettings)
    (made g : Csprng δ ε π) (hmade : MadeWith settings made) (ops : List Locked)
    (hg : (run ops made).2 = g) (lengths : List Nat)
    (hroom : lengths.sum ≤ g.available ∨ g.available = 0 ∧ lengths.sum ≤ g.cache.length)
    (hunasked : Unasked lengths g) :
    let split := generateEach lengths g
    let whole := generate lengths.sum g
    let splitRecord := (generateEach lengths g.attended).state
    let wholeRecord := (generate lengths.sum g.attended).state
    split.result = whole.result ∧
    (∀ bytes, split.result = .ok bytes →
      bytes.length = lengths.sum ∧ unruled split.state = unruled whole.state) ∧
    (splitRecord.unattended = split.state ∧ wholeRecord.unattended = whole.state) ∧
    splitRecord.drbg.heard = wholeRecord.drbg.heard ∧
    splitRecord.entropy.reads = wholeRecord.entropy.reads := by
  obtain ⟨hfills, hfresh⟩ := hmade.fresh
  have hsize := Nat.min_le_right settings.cacheSize made.maxRequest
  have hJ := Drbg.reachable_upheld hfills made.maxRequest
  have hended := run_live hJ hfresh.positive hsize ops hfresh.live
  rw [hg] at hended
  have hplain := requests_alike hJ hsize hended lengths hroom hunasked
  have hrecord := requests_alike (Overheard.askedWithin_upheld hJ) hsize (attended_live hended)
    lengths hroom hunasked.attended
  refine ⟨hplain.result, fun bytes hbytes => ⟨?_, hplain.state bytes hbytes⟩,
    ⟨(generateEach_attended lengths g.attended).2.1, (generate_attended _ g.attended).2.1⟩,
    congrArg Overheard.heard hrecord.drbg, congrArg Attended.reads hrecord.entropy⟩
  exact length_generate hJ hfresh.positive hsize hended (hplain.result.symm.trans hbytes)

open Replay in
/-- All that the cache has room for, with a reseed that the generator requires on the way. -/
theorem split_requests_alike_reseeded :
    ∃ made : Csprng ScriptedDrbg Script Policy.Never,
      MadeWith { cacheSize := 4, maxRequest := 16, entropyLen := some 2, maxReseedRetry := 1 }
        made ∧
      (generateEach [1, 0, 3] (run [.pass 4] made).2).result = .ok [1, 17, 33, 49] ∧
      (generate 4 (run [.pass 4] made).2).result = .ok [1, 17, 33, 49] ∧
      Drbg.reseedsTaken
        (generate 4 (run [.pass 4] made).2.attended).state.drbg.heard = 1 ∧
      (generateEach [1, 0, 3] (run [.pass 4] made).2.attended).state.drbg.heard =
        (generate 4 (run [.pass 4] made).2.attended).state.drbg.heard := by
  let made : Csprng ScriptedDrbg Script Policy.Never :=
    { drbg := ⟨0, 16, [none, some .drbgReseedRequired], [], []⟩
      entropy := .ofSteps [⟨.constant 7, none, none, 1⟩], policy := ⟨⟩, cache := [0, 0, 0, 0]
      cursor := 4, phase := .seeded, maxRequest := 16, entropyLen := 2, maxRetry := 1 }
  have hmade : MadeWith
      { cacheSize := 4, maxRequest := 16, entropyLen := some 2, maxReseedRetry := 1 } made :=
    .ofDrbg (scripted_fills made.drbg) rfl
  have hbytes : (generateEach [1, 0, 3] (run [.pass 4] made).2).result = .ok [1, 17, 33, 49] := by
    decide +kernel
  have hreseeded : Drbg.reseedsTaken
      (generate 4 (run [.pass 4] made).2.attended).state.drbg.heard = 1 := by
    decide +kernel
  obtain ⟨hresult, -, -, hheard, -⟩ := split_requests_alike _ made _ hmade [.pass 4] rfl [1, 0, 3]
    (.inr (by decide +kernel)) (unasked_never _ _)
  rw [show [1, 0, 3].sum = 4 from rfl] at hresult hheard
  exact ⟨made, hmade, hbytes, hresult.symm.trans hbytes, hreseeded, hheard⟩

end Csprng

end CryptoPrimitives
