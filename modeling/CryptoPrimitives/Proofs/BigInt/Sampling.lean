import CryptoPrimitives.Proofs.BigInt.Candidates
import CryptoPrimitives.Proofs.BigInt.Integers
import CryptoPrimitives.Proofs.BigInt.Inverse

/-!
# Sampling by rejection

The reads of a sampler up to the first string that it accepts are a relation of their own, with no
limit. A draw with a limit delivers what that string gives or the failure of the source, as soon as
the limit allows for so many reads, and it never delivers anything else. Sampling without zero is a
loop around sampling with it, and its reads are the reads of the inner loops one after the other.
-/

set_option autoImplicit false

namespace CryptoPrimitives.BigInt

/-! ## Reads up to the first accepted string -/

section Reads

variable {σ : Type}

inductive ReadsUntil (fill : Fill (StateM σ)) (length : Nat) (accepts : Bytes → Prop) :
    Nat → σ → Except Fault Bytes → σ → Prop
  | failed {s t : σ} {e : Fault} (read : (fill length).run s = (.error e, t)) :
      ReadsUntil fill length accepts 1 s (.error .randomnessFailed) t
  | accepted {s t : σ} {bytes : Bytes} (read : (fill length).run s = (.ok bytes, t))
      (fits : accepts bytes) : ReadsUntil fill length accepts 1 s (.ok bytes) t
  | refused {k : Nat} {s t u : σ} {bytes : Bytes} {result : Except Fault Bytes}
      (read : (fill length).run s = (.ok bytes, t)) (unfit : ¬accepts bytes)
      (rest : ReadsUntil fill length accepts k t result u) :
      ReadsUntil fill length accepts (k + 1) s result u

namespace ReadsUntil

variable {fill : Fill (StateM σ)} {length k : Nat} {wide narrow : Bytes → Prop} {s t u : σ}
  {bytes : Bytes} {result : Except Fault Bytes}

theorem pos (h : ReadsUntil fill length wide k s result t) : 0 < k := by
  cases h <;> omega

theorem fits (h : ReadsUntil fill length wide k s result t) : result = .ok bytes → wide bytes := by
  induction h with
  | failed read => exact fun h => nomatch h
  | accepted read fits =>
    intro h
    cases h
    exact fits
  | refused read unfit rest ih => exact ih

/-- What is refused by the wider sampler is refused by the narrower one too. -/
theorem narrowed (hsub : ∀ b, narrow b → wide b) (h : ReadsUntil fill length wide k s result t)
    (hr : ∀ b, result = .ok b → narrow b) : ReadsUntil fill length narrow k s result t := by
  induction h with
  | failed read => exact .failed read
  | accepted read fits => exact .accepted read (hr _ rfl)
  | refused read unfit rest ih => exact .refused read (fun hn => unfit (hsub _ hn)) (ih hr)

/-- Where only the wider sampler stops, the narrower one reads on. -/
theorem continued {j : Nat} (hsub : ∀ b, narrow b → wide b)
    (h : ReadsUntil fill length wide j s (.ok bytes) t) (hb : ¬narrow bytes)
    (rest : ReadsUntil fill length narrow k t result u) :
    ReadsUntil fill length narrow (j + k) s result u := by
  generalize hr : Except.ok bytes = stopped at h
  induction h with
  | failed read => cases hr
  | accepted read fits =>
    cases hr
    rw [Nat.add_comm]
    exact .refused read hb rest
  | refused read unfit tail ih =>
    rw [Nat.add_right_comm]
    exact .refused read (fun hn => unfit (hsub _ hn)) (ih rest hr)

/-- The first stop of the wider sampler is the narrower one's, or that one reads on from there. -/
theorem divided (hsub : ∀ b, narrow b → wide b) (h : ReadsUntil fill length narrow k s result t) :
    ReadsUntil fill length wide k s result t ∨
      ∃ i j b m, k = i + j ∧ ReadsUntil fill length wide i s (.ok b) m ∧ ¬narrow b ∧
        ReadsUntil fill length narrow j m result t := by
  induction h with
  | failed read => exact .inl (.failed read)
  | accepted read fits => exact .inl (.accepted read (hsub _ fits))
  | @refused k s m t bytes result read unfit rest ih =>
    by_cases hw : wide bytes
    · exact .inr ⟨1, k, bytes, m, Nat.add_comm k 1, .accepted read hw, unfit, rest⟩
    · obtain hall | ⟨i, j, b, n, rfl, hfirst, hb, hlast⟩ := ih
      · exact .inl (.refused read hw hall)
      · exact .inr ⟨i + 1, j, b, n, Nat.add_right_comm i j 1, .refused read hw hfirst, hb, hlast⟩

end ReadsUntil

/-- With the limit to its draws as an argument, a sampler delivers what the first accepted string
gives: always when the limit is not less than the reads, and never anything else. -/
structure DeliversFirst (fill : Fill (StateM σ)) (length : Nat) (accepts : Bytes → Prop)
    (give : Bytes → BigInt) (draw : Nat → StateM σ (Except Fault (Option BigInt))) : Prop where
  delivered : ∀ {k draws : Nat} {s t : σ} {result : Except Fault Bytes},
    ReadsUntil fill length accepts k s result t → k ≤ draws →
      (draw draws).run s = (result.map fun bytes => some (give bytes), t)
  nothing_else : ∀ {draws : Nat} {s t : σ} {answer : Except Fault (Option BigInt)},
    (draw draws).run s = (answer, t) → answer ≠ .ok none →
      ∃ k result, ReadsUntil fill length accepts k s result t ∧
        answer = result.map fun bytes => some (give bytes)

/-! ## The loops -/

theorem run_bind_of {α β : Type} {a : StateM σ α} {f : α → StateM σ β} {s t : σ} {x : α}
    (h : a.run s = (x, t)) : (a >>= f).run s = (f x).run t := by
  rw [StateT.run_bind, h]
  rfl

end Reads

section Loops

variable {m : Type → Type} [Monad m]

theorem drawBelow_succ [LawfulMonad m] (fill : Fill m) {upper : BigInt} (hu : Canonical upper)
    (draws : Nat) :
    drawBelow fill upper (draws + 1) = fill (ceilDiv upper.bitLength 8) >>= fun
      | .error _ => pure (.error .randomnessFailed)
      | .ok bytes =>
        if (candidate upper.bitLength bytes).toInt < upper.toInt then
          pure (.ok (some (candidate upper.bitLength bytes)))
        else drawBelow fill upper draws := by
  simp only [drawBelow, drawBytes, bind_assoc]
  congr 1
  funext answer
  cases answer with
  | error e => rw [pure_bind]
  | ok bytes =>
    rw [pure_bind]
    exact if_congr (compare_lt_iff (candidate_canonical _ bytes) hu) rfl rfl

theorem randomBits_eq [LawfulMonad m] (fill : Fill m) {bits : Nat} (odd : Bool) (h : 1 ≤ bits) :
    randomBits fill bits odd = fill (ceilDiv bits 8) >>= fun
      | .error _ => pure (.error .randomnessFailed)
      | .ok bytes => pure (.ok (withEnds bits odd (clearExcess bits bytes))) := by
  rw [randomBits, if_neg (Nat.one_le_iff_ne_zero.mp h)]
  simp only [drawBytes, bind_assoc]
  congr 1
  funext answer
  cases answer <;> rw [pure_bind]

theorem nothing_below_iff {upper : BigInt} (hu : Canonical upper) :
    (upper.isZero || upper.negative) = true ↔ upper.toInt ≤ 0 := by
  rw [Bool.or_eq_true, hu.isZero_iff, hu.negative_iff]
  omega

theorem nothing_between_iff {upper : BigInt} (hu : Canonical upper) :
    (upper.isZero || upper.isOne || upper.negative) = true ↔ upper.toInt ≤ 1 := by
  rw [Bool.or_eq_true, Bool.or_eq_true, hu.isZero_iff, isOne_iff hu, hu.negative_iff]
  omega

theorem randomBelow_refused (fill : Fill m) (draws : Nat) {upper : BigInt} (hu : Canonical upper)
    (h : upper.toInt ≤ 0) : randomBelow fill draws upper = pure (.error .invalidInput) :=
  if_pos ((nothing_below_iff hu).mpr h)

theorem randomBelow_accepted (fill : Fill m) (draws : Nat) {upper : BigInt} (hu : Canonical upper)
    (h : 0 < upper.toInt) : randomBelow fill draws upper = drawBelow fill upper draws :=
  if_neg fun hc => Int.not_le.mpr h ((nothing_below_iff hu).mp hc)

theorem randomRange_refused (fill : Fill m) (draws : Nat) {upper : BigInt} (hu : Canonical upper)
    (h : upper.toInt ≤ 1) : randomRange fill draws upper = pure (.error .invalidInput) :=
  if_pos ((nothing_between_iff hu).mpr h)

theorem randomRange_accepted (fill : Fill m) (draws : Nat) {upper : BigInt} (hu : Canonical upper)
    (h : 1 < upper.toInt) : randomRange fill draws upper = drawNonzero fill draws upper draws :=
  if_neg fun hc => Int.not_le.mpr h ((nothing_between_iff hu).mp hc)

theorem drawNonzero_succ (fill : Fill m) (draws rounds : Nat) {upper : BigInt}
    (hu : Canonical upper) (h : 0 < upper.toInt) :
    drawNonzero fill draws upper (rounds + 1) = drawBelow fill upper draws >>= fun
      | .error e => pure (.error e)
      | .ok none => pure (.ok none)
      | .ok (some x) =>
        if x.isZero then drawNonzero fill draws upper rounds else pure (.ok (some x)) := by
  rw [← randomBelow_accepted fill draws hu h]
  rfl

end Loops

/-! ## What the loops deliver -/

section Delivered

variable {σ : Type} (fill : Fill (StateM σ)) {upper : BigInt}

def InRange (low : Nat) (upper : BigInt) (bytes : Bytes) : Prop :=
  (low : Int) ≤ (candidate upper.bitLength bytes).toInt ∧
    (candidate upper.bitLength bytes).toInt < upper.toInt

instance (low : Nat) (upper : BigInt) : DecidablePred (InRange low upper) :=
  fun _ => inferInstanceAs (Decidable (_ ∧ _))

theorem inRange_zero_iff (upper : BigInt) (bytes : Bytes) :
    InRange 0 upper bytes ↔ (candidate upper.bitLength bytes).toInt < upper.toInt :=
  and_iff_right (candidate_nonneg _ bytes)

/-- From one on the only number that is left out is zero. -/
theorem inRange_one_iff (upper : BigInt) (bytes : Bytes) :
    InRange 1 upper bytes ↔
      InRange 0 upper bytes ∧ ¬(candidate upper.bitLength bytes).isZero = true := by
  have hnonneg := candidate_nonneg upper.bitLength bytes
  rw [InRange, InRange, (candidate_canonical _ bytes).isZero_iff]
  omega

theorem drawBelow_delivers (hu : Canonical upper) :
    DeliversFirst fill (ceilDiv upper.bitLength 8) (InRange 0 upper) (candidate upper.bitLength)
      (drawBelow fill upper) where
  delivered {k draws s t result} h hle := by
    induction h generalizing draws with
    | failed read =>
      obtain ⟨n, rfl⟩ := Nat.exists_eq_add_of_le' hle
      rw [drawBelow_succ fill hu, run_bind_of read]
      rfl
    | accepted read fits =>
      obtain ⟨n, rfl⟩ := Nat.exists_eq_add_of_le' hle
      rw [drawBelow_succ fill hu, run_bind_of read]
      simp only
      rw [if_pos fits.2]
      rfl
    | @refused k s t u bytes result read unfit rest ih =>
      obtain ⟨n, rfl⟩ := Nat.exists_eq_add_of_le' ((Nat.le_add_left 1 k).trans hle)
      rw [inRange_zero_iff] at unfit
      rw [drawBelow_succ fill hu, run_bind_of read]
      simp only
      rw [if_neg unfit]
      exact ih (by omega)
  nothing_else {draws s t answer} h hne := by
    induction draws generalizing s with
    | zero =>
      cases h
      exact absurd rfl hne
    | succ draws ih =>
      obtain ⟨next, m, hread⟩ : ∃ next m, (fill (ceilDiv upper.bitLength 8)).run s = (next, m) :=
        ⟨_, _, rfl⟩
      rw [drawBelow_succ fill hu, run_bind_of hread] at h
      cases next with
      | error e =>
        cases h
        exact ⟨1, _, .failed hread, rfl⟩
      | ok bytes =>
        simp only at h
        by_cases hb : InRange 0 upper bytes
        · rw [if_pos hb.2] at h
          cases h
          exact ⟨1, _, .accepted hread hb, rfl⟩
        · rw [if_neg (fun hlt => hb ((inRange_zero_iff upper bytes).mpr hlt))] at h
          obtain ⟨k, result, hreads, ha⟩ := ih h
          exact ⟨k + 1, result, .refused hread hb hreads, ha⟩

theorem inRange_widen (b : Bytes) (hb : InRange 1 upper b) : InRange 0 upper b :=
  ((inRange_one_iff upper b).mp hb).1

variable {fill}

/-- No inner loop and no number of rounds comes to more than all reads together. -/
theorem drawNonzero_run (hu : Canonical upper) (h0 : 0 < upper.toInt) {k draws rounds : Nat}
    {s t : σ} {result : Except Fault Bytes}
    (h : ReadsUntil fill (ceilDiv upper.bitLength 8) (InRange 1 upper) k s result t)
    (hdraws : k ≤ draws) (hrounds : k ≤ rounds) :
    (drawNonzero fill draws upper rounds).run s =
      (result.map fun bytes => some (candidate upper.bitLength bytes), t) := by
  have hinner := drawBelow_delivers fill hu
  induction rounds generalizing k s with
  | zero => exact absurd h.pos (by omega)
  | succ rounds ih =>
    rw [drawNonzero_succ fill draws rounds hu h0]
    -- the inner loop is the last one, or it stops at zero and the rounds that are left read on
    obtain hall | ⟨i, j, b, m, rfl, hfirst, hb, hrest⟩ := h.divided inRange_widen
    · rw [run_bind_of (hinner.delivered hall hdraws)]
      cases result with
      | error e => rfl
      | ok bytes =>
        have hone := ((inRange_one_iff upper bytes).mp (h.fits rfl)).2
        simp only [Except.map]
        rw [if_neg hone]
        rfl
    · have hzero : (candidate upper.bitLength b).isZero = true := by
        by_contra hne
        exact hb ((inRange_one_iff upper b).mpr ⟨hfirst.fits rfl, hne⟩)
      have hpos := hfirst.pos
      rw [run_bind_of (hinner.delivered hfirst (by omega))]
      simp only [Except.map]
      rw [if_pos hzero]
      exact ih hrest (by omega) (by omega)

theorem drawNonzero_reads (hu : Canonical upper) (h0 : 0 < upper.toInt) {draws rounds : Nat}
    {s t : σ} {answer : Except Fault (Option BigInt)}
    (h : (drawNonzero fill draws upper rounds).run s = (answer, t)) (hne : answer ≠ .ok none) :
    ∃ k result, ReadsUntil fill (ceilDiv upper.bitLength 8) (InRange 1 upper) k s result t ∧
      answer = result.map fun bytes => some (candidate upper.bitLength bytes) := by
  induction rounds generalizing s with
  | zero =>
    cases h
    exact absurd rfl hne
  | succ rounds ih =>
    obtain ⟨next, m, hdraw⟩ : ∃ next m, (drawBelow fill upper draws).run s = (next, m) :=
      ⟨_, _, rfl⟩
    rw [drawNonzero_succ fill draws rounds hu h0, run_bind_of hdraw] at h
    by_cases hnext : next = .ok none
    · subst hnext
      cases h
      exact absurd rfl hne
    · obtain ⟨k, result, hreads, rfl⟩ := (drawBelow_delivers fill hu).nothing_else hdraw hnext
      cases result with
      | error e =>
        cases h
        exact ⟨k, _, hreads.narrowed inRange_widen (fun b hb => nomatch hb), rfl⟩
      | ok bytes =>
        simp only [Except.map] at h
        by_cases hzero : (candidate upper.bitLength bytes).isZero = true
        · have hb : ¬InRange 1 upper bytes :=
            fun hb => ((inRange_one_iff upper bytes).mp hb).2 hzero
          rw [if_pos hzero] at h
          obtain ⟨j, last, hlast, ha⟩ := ih h
          exact ⟨k + j, last, hreads.continued inRange_widen hb hlast, ha⟩
        · rw [if_neg hzero] at h
          cases h
          refine ⟨k, _, hreads.narrowed inRange_widen (fun b hb => ?_), rfl⟩
          cases hb
          exact (inRange_one_iff upper bytes).mpr ⟨hreads.fits rfl, hzero⟩

end Delivered

/-! ## The two samplers -/

inductive Sampler
  /-- with zero -/
  | below
  /-- without zero -/
  | nonzero
  deriving DecidableEq, Repr

namespace Sampler

def least : Sampler → Nat
  | below => 0
  | nonzero => 1

def draw {m : Type → Type} [Monad m] : Sampler → Fill m → Nat → BigInt →
    m (Except Fault (Option BigInt))
  | below, fill, draws, upper => randomBelow fill draws upper
  | nonzero, fill, draws, upper => randomRange fill draws upper

variable {upper : BigInt} (sampler : Sampler)

/-- A bound with nothing below it is refused, and the source is not asked. -/
theorem draw_refused (hu : Canonical upper) (h : upper.toInt ≤ sampler.least) {m : Type → Type}
    [Monad m] (fill : Fill m) (draws : Nat) :
    sampler.draw fill draws upper = pure (.error .invalidInput) := by
  cases sampler with
  | below => exact randomBelow_refused fill draws hu h
  | nonzero => exact randomRange_refused fill draws hu h

theorem draw_delivers (hu : Canonical upper) (h : sampler.least < upper.toInt) {σ : Type}
    (fill : Fill (StateM σ)) :
    DeliversFirst fill (ceilDiv upper.bitLength 8) (InRange sampler.least upper)
      (candidate upper.bitLength) (fun draws => sampler.draw fill draws upper) := by
  cases sampler with
  | below =>
    have heq : (fun draws => randomBelow fill draws upper) = drawBelow fill upper := by
      funext draws
      exact randomBelow_accepted fill draws hu h
    have hd := drawBelow_delivers fill hu
    rwa [← heq] at hd
  | nonzero =>
    have h0 : 0 < upper.toInt := Int.zero_lt_one.trans h
    have heq : ∀ draws, randomRange fill draws upper = drawNonzero fill draws upper draws :=
      fun draws => randomRange_accepted fill draws hu h
    refine ⟨fun hreads hle => ?_, fun hrun hne => ?_⟩
    · simp only [draw, heq]
      exact drawNonzero_run hu h0 hreads hle hle
    · simp only [draw, heq] at hrun
      exact drawNonzero_reads hu h0 hrun hne

/-- With one draw allowed a string is delivered or nothing is, and either way it has been read. -/
theorem draw_one (hu : Canonical upper) (h : sampler.least < upper.toInt) {σ : Type}
    (fill : Fill (StateM σ)) {s t : σ} {bytes : Bytes}
    (read : (fill (ceilDiv upper.bitLength 8)).run s = (.ok bytes, t)) :
    (sampler.draw fill 1 upper).run s =
      (.ok (if InRange sampler.least upper bytes then some (candidate upper.bitLength bytes)
        else none), t) := by
  have hbelow : (drawBelow fill upper 1).run s =
      (.ok (if InRange 0 upper bytes then some (candidate upper.bitLength bytes) else none),
        t) := by
    rw [drawBelow_succ fill hu, run_bind_of read]
    simp only [inRange_zero_iff]
    split <;> rfl
  cases sampler with
  | below => rw [draw, randomBelow_accepted fill 1 hu h, hbelow, least]
  | nonzero =>
    have h0 : 0 < upper.toInt := Int.zero_lt_one.trans h
    rw [draw, randomRange_accepted fill 1 hu h, drawNonzero_succ fill 1 0 hu h0, run_bind_of hbelow,
      least, if_congr (inRange_one_iff upper bytes) rfl rfl]
    by_cases hlow : InRange 0 upper bytes
    · rw [if_pos hlow]
      by_cases hzero : (candidate upper.bitLength bytes).isZero = true
      · rw [if_neg fun hb => hb.2 hzero]
        simp only
        rw [if_pos hzero]
        rfl
      · rw [if_pos ⟨hlow, hzero⟩]
        simp only
        rw [if_neg hzero]
        rfl
    · rw [if_neg hlow, if_neg fun hb => hlow hb.1]
      rfl

end Sampler

end CryptoPrimitives.BigInt
