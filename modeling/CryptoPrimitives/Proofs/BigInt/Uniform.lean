import Mathlib.Probability.Distributions.Uniform
import CryptoPrimitives.Proofs.BigInt.Sampling
import CryptoPrimitives.Replay.Tape

/-!
# Uniform numbers from a uniform source

Run on a source whose strings are uniform, a sampler delivers every number of its range with one
probability. What is missing from one is that the limit to the draws ends it, which becomes less
likely by half, or nearly, with every draw that is allowed.
-/

set_option autoImplicit false

namespace CryptoPrimitives.BigInt

noncomputable section

open Bytes (strings mem_strings strings_nonempty strings_split card_strings sum_strings_mod value)
open Finset (range)
open scoped ENNReal

def uniformSource : Fill PMF := fun n =>
  (PMF.uniformOfFinset (strings n) (strings_nonempty n)).map .ok

theorem uniformSource_bind {α : Type} (n : Nat) (f : Except Fault Bytes → PMF α) (x : α) :
    (uniformSource n >>= f) x =
      ((256 ^ n : Nat) : ℝ≥0∞)⁻¹ * ∑ bytes ∈ strings n, f (.ok bytes) x := by
  have hbind : uniformSource n >>= f =
      (PMF.uniformOfFinset (strings n) (strings_nonempty n)).bind fun bytes => f (.ok bytes) :=
    PMF.bind_map _ _ _
  rw [hbind, PMF.bind_apply, tsum_eq_sum (s := strings n), Finset.mul_sum]
  · refine Finset.sum_congr rfl fun bytes hbytes => ?_
    rw [PMF.uniformOfFinset_apply_of_mem _ hbytes, card_strings]
  · intro bytes hbytes
    rw [PMF.uniformOfFinset_apply_of_notMem _ hbytes, zero_mul]

theorem pow_ne_zero_top (k : Nat) :
    ((2 ^ k : Nat) : ℝ≥0∞) ≠ 0 ∧ ((2 ^ k : Nat) : ℝ≥0∞) ≠ ⊤ :=
  ⟨Nat.cast_ne_zero.mpr (Nat.two_pow_pos k).ne', ENNReal.natCast_ne_top _⟩

/-- What depends on the lowest bits only is a mean over these. -/
theorem uniformSource_bits {α : Type} (bits : Nat) (f : Except Fault Bytes → PMF α) (x : α)
    (g : Nat → ℝ≥0∞)
    (hf : ∀ bytes ∈ strings (ceilDiv bits 8), f (.ok bytes) x = g (value bytes % 2 ^ bits)) :
    (uniformSource (ceilDiv bits 8) >>= f) x =
      ((2 ^ bits : Nat) : ℝ≥0∞)⁻¹ * ∑ v ∈ range (2 ^ bits), g v := by
  obtain ⟨hne, htop⟩ := pow_ne_zero_top (8 * ceilDiv bits 8 - bits)
  rw [uniformSource_bind, Finset.sum_congr rfl hf, sum_strings_mod (le_ceilDiv bits), nsmul_eq_mul,
    strings_split (le_ceilDiv bits), Nat.cast_mul, ENNReal.mul_inv (.inr htop) (.inr hne),
    mul_assoc, ← mul_assoc _ _ (Finset.sum _ _), ENNReal.inv_mul_cancel hne htop, one_mul]

/-! ## One loop -/

variable {upper : BigInt}

def refusal (upper : BigInt) : ℝ≥0∞ :=
  ((2 ^ upper.bitLength : Nat) : ℝ≥0∞)⁻¹ * (2 ^ upper.bitLength - upper.magnitude : Nat)

def share (upper : BigInt) : Nat → ℝ≥0∞
  | 0 => 0
  | draws + 1 => ((2 ^ upper.bitLength : Nat) : ℝ≥0∞)⁻¹ + refusal upper * share upper draws

/-- Below the bound there is a term for each number, from there on always the same. -/
theorem sum_below {bound total : Nat} (h : bound ≤ total) (g : Nat → ℝ≥0∞) (c : ℝ≥0∞) :
    ∑ v ∈ range total, (if v < bound then g v else c) =
      ∑ v ∈ range bound, g v + (total - bound : Nat) * c := by
  have hlow : ∑ v ∈ range bound, (if v < bound then g v else c) = ∑ v ∈ range bound, g v :=
    Finset.sum_congr rfl fun v hv => if_pos (Finset.mem_range.mp hv)
  have hhigh : ∀ i ∈ range (total - bound), (if bound + i < bound then g (bound + i) else c) = c :=
    fun i _ => if_neg (Nat.not_lt.mpr (Nat.le_add_right bound i))
  conv_lhs => rw [← Nat.add_sub_cancel' h, Finset.sum_range_add]
  rw [hlow, Finset.sum_congr rfl hhigh, Finset.sum_const, Finset.card_range, nsmul_eq_mul]

theorem drawBelow_succ_uniform {α : Type} (hu : Canonical upper) (h0 : 0 < upper.toInt)
    (draws : Nat) (f : Except Fault (Option BigInt) → PMF α) (x : α) (g : Nat → ℝ≥0∞)
    (hf : ∀ c (v : Nat), Represents c v → f (.ok (some c)) x = g v) :
    (drawBelow uniformSource upper (draws + 1) >>= f) x =
      ((2 ^ upper.bitLength : Nat) : ℝ≥0∞)⁻¹ * ∑ v ∈ range upper.magnitude, g v +
        refusal upper * (drawBelow uniformSource upper draws >>= f) x := by
  rw [drawBelow_succ uniformSource hu, bind_assoc]
  generalize drawBelow uniformSource upper draws = rest
  refine (uniformSource_bits upper.bitLength _ x (fun v =>
    if v < upper.magnitude then g v else (rest >>= f) x) fun bytes hbytes => ?draw).trans ?mean
  case draw =>
    have hc := candidate_represents (Bytes.mem_strings.mp hbytes)
    have hiff : (candidate upper.bitLength bytes).toInt < upper.toInt ↔
        value bytes % 2 ^ upper.bitLength < upper.magnitude := by
      rw [hc.toInt_eq, toInt_of_pos h0, Nat.cast_lt]
    by_cases hlt : value bytes % 2 ^ upper.bitLength < upper.magnitude
    · simp only [if_pos hlt, if_pos (hiff.mpr hlt), pure_bind, hf _ _ hc]
    · simp only [if_neg hlt, if_neg (fun h => hlt (hiff.mp h))]
  case mean =>
    rw [sum_below (magnitude_lt upper).le, refusal, mul_add, mul_assoc]

theorem drawBelow_uniform {α : Type} (hu : Canonical upper) (h0 : 0 < upper.toInt) (draws : Nat)
    (f : Except Fault (Option BigInt) → PMF α) (x : α) (g : Nat → ℝ≥0∞)
    (hf : ∀ c (v : Nat), Represents c v → f (.ok (some c)) x = g v) :
    (drawBelow uniformSource upper draws >>= f) x =
      share upper draws * ∑ v ∈ range upper.magnitude, g v +
        refusal upper ^ draws * f (.ok none) x := by
  induction draws with
  | zero =>
    rw [share, zero_mul, zero_add, pow_zero, one_mul]
    exact congrFun (congrArg _ (pure_bind _ f)) x
  | succ draws ih =>
    rw [drawBelow_succ_uniform hu h0 draws f x g hf, ih, share]
    ring

/-- Either some number comes out or every draw is refused. -/
theorem share_total (upper : BigInt) (draws : Nat) :
    upper.magnitude * share upper draws + refusal upper ^ draws = 1 := by
  obtain ⟨hne, htop⟩ := pow_ne_zero_top upper.bitLength
  have hone : upper.magnitude * ((2 ^ upper.bitLength : Nat) : ℝ≥0∞)⁻¹ + refusal upper = 1 := by
    rw [refusal, mul_comm, ← mul_add, ← Nat.cast_add,
      Nat.add_sub_cancel' (magnitude_lt upper).le, ENNReal.inv_mul_cancel hne htop]
  induction draws with
  | zero => rw [share, mul_zero, zero_add, pow_zero]
  | succ draws ih =>
    calc upper.magnitude * share upper (draws + 1) + refusal upper ^ (draws + 1)
        = upper.magnitude * ((2 ^ upper.bitLength : Nat) : ℝ≥0∞)⁻¹ +
            refusal upper * (upper.magnitude * share upper draws + refusal upper ^ draws) := by
          rw [share]
          ring
      _ = 1 := by rw [ih, mul_one, hone]

theorem refusal_le_half (h0 : 0 < upper.toInt) : refusal upper ≤ 2⁻¹ := by
  obtain ⟨hne, htop⟩ := pow_ne_zero_top upper.bitLength
  have hhalf : (2 ^ upper.bitLength - upper.magnitude) * 2 ≤ 2 ^ upper.bitLength := by
    have hm := toInt_of_pos h0
    have hle := magnitude_half (x := upper) (by omega)
    generalize 2 ^ upper.bitLength = total at hle
    omega
  rw [ENNReal.le_inv_iff_mul_le, refusal, mul_assoc]
  calc ((2 ^ upper.bitLength : Nat) : ℝ≥0∞)⁻¹ * ((2 ^ upper.bitLength - upper.magnitude : Nat) * 2)
      ≤ ((2 ^ upper.bitLength : Nat) : ℝ≥0∞)⁻¹ * (2 ^ upper.bitLength : Nat) := by
        gcongr
        exact_mod_cast hhalf
    _ = 1 := ENNReal.inv_mul_cancel hne htop

theorem share_le_half (h1 : 1 < upper.toInt) (draws : Nat) : share upper draws ≤ 2⁻¹ := by
  have hm := toInt_of_pos (Int.zero_lt_one.trans h1)
  have htwo : (2 : ℝ≥0∞) ≤ upper.magnitude := by exact_mod_cast (by omega : 2 ≤ upper.magnitude)
  have htotal : upper.magnitude * share upper draws ≤ 1 := by
    rw [← share_total upper draws]
    exact le_self_add
  rw [ENNReal.le_inv_iff_mul_le, mul_comm]
  exact (mul_le_mul_left htwo _).trans htotal

/-! ## What is delivered -/

def reading : Except Fault (Option BigInt) → Except Fault (Option Int) :=
  Except.map (Option.map toInt)

def law (answer : PMF (Except Fault (Option BigInt))) : PMF (Except Fault (Option Int)) :=
  answer.map reading

theorem law_bind {α : Type} (p : PMF α) (f : α → PMF (Except Fault (Option BigInt))) :
    law (p >>= f) = p >>= fun a => law (f a) :=
  PMF.map_bind p f reading

theorem law_pure (a : Except Fault (Option BigInt)) : law (pure a) = PMF.pure (reading a) :=
  PMF.pure_map reading a

def delivery (v : Nat) : PMF (Except Fault (Option Int)) := PMF.pure (.ok (some (v : Int)))

def exhausted : PMF (Except Fault (Option Int)) := PMF.pure (.ok none)

theorem exhausted_some (v : Nat) : exhausted (.ok (some (v : Int))) = 0 :=
  PMF.pure_apply_of_ne _ _ (by simp)

theorem exhausted_none : exhausted (.ok none) = 1 := PMF.pure_apply_self _

theorem sum_delivery {low bound v : Nat} (h : v ∈ Finset.Ico low bound) :
    ∑ u ∈ Finset.Ico low bound, delivery u (.ok (some (v : Int))) = 1 := by
  rw [Finset.sum_eq_single_of_mem v h fun u _ hne => ?_]
  · exact PMF.pure_apply_self _
  · refine PMF.pure_apply_of_ne _ _ fun heq => hne ?_
    simpa using heq.symm

theorem sum_delivery_none (low bound : Nat) :
    ∑ u ∈ Finset.Ico low bound, delivery u (.ok none) = 0 :=
  Finset.sum_eq_zero fun _ _ => PMF.pure_apply_of_ne _ _ (by simp)

theorem law_drawBelow (hu : Canonical upper) (h0 : 0 < upper.toInt) (draws : Nat)
    (x : Except Fault (Option Int)) :
    law (drawBelow uniformSource upper draws) x =
      share upper draws * ∑ v ∈ Finset.Ico 0 upper.magnitude, delivery v x +
        refusal upper ^ draws * exhausted x := by
  rw [← Finset.range_eq_Ico]
  refine drawBelow_uniform hu h0 draws (fun a => pure (reading a)) x (fun v => delivery v x) ?_
  intro c v hc
  rw [delivery, ← hc.toInt_eq]
  rfl

/-- The loop around the draws delivers what a draw does, or what the rounds that are left do when
that is zero. -/
theorem law_drawNonzero_succ (hu : Canonical upper) (h0 : 0 < upper.toInt) (draws rounds : Nat)
    (x : Except Fault (Option Int)) :
    law (drawNonzero uniformSource draws upper (rounds + 1)) x =
      share upper draws * (law (drawNonzero uniformSource draws upper rounds) x +
          ∑ v ∈ Finset.Ico 1 upper.magnitude, delivery v x) +
        refusal upper ^ draws * exhausted x := by
  have hm := toInt_of_pos h0
  have hsum := Finset.sum_range_eq_add_Ico (fun v =>
    if v = 0 then law (drawNonzero uniformSource draws upper rounds) x else delivery v x)
    (show 0 < upper.magnitude by omega)
  have hrest : ∀ v ∈ Finset.Ico 1 upper.magnitude,
      (if v = 0 then law (drawNonzero uniformSource draws upper rounds) x else delivery v x) =
        delivery v x :=
    fun v hv => if_neg (by have := (Finset.mem_Ico.mp hv).1; omega)
  rw [if_pos rfl, Finset.sum_congr rfl hrest] at hsum
  rw [← hsum, drawNonzero_succ uniformSource draws rounds hu h0, law_bind]
  refine (drawBelow_uniform hu h0 draws _ x (fun v =>
    if v = 0 then law (drawNonzero uniformSource draws upper rounds) x else delivery v x)
    fun c v hc => ?found).trans ?none
  case found =>
    have hiff : c.isZero = true ↔ v = 0 := by
      rw [hc.canonical.isZero_iff, hc.toInt_eq, Int.natCast_eq_zero]
    by_cases h : v = 0
    · simp only [if_pos h, if_pos (hiff.mpr h)]
    · simp only [if_neg h, if_neg (fun hz => h (hiff.mp hz)), law_pure]
      rw [delivery, ← hc.toInt_eq]
      rfl
  case none =>
    simp only [law_pure]
    rfl

/-! ## The samplers -/

theorem law_drawBelow_some (hu : Canonical upper) (h0 : 0 < upper.toInt) (draws : Nat) {v : Nat}
    (hv : v ∈ Finset.Ico 0 upper.magnitude) :
    law (drawBelow uniformSource upper draws) (.ok (some (v : Int))) = share upper draws := by
  rw [law_drawBelow hu h0, sum_delivery hv, exhausted_some, mul_one, mul_zero, add_zero]

theorem law_drawBelow_none (hu : Canonical upper) (h0 : 0 < upper.toInt) (draws : Nat) :
    law (drawBelow uniformSource upper draws) (.ok none) = refusal upper ^ draws := by
  rw [law_drawBelow hu h0, sum_delivery_none, exhausted_none, mul_zero, zero_add, mul_one]

theorem law_drawNonzero_zero (upper : BigInt) (draws : Nat) :
    law (drawNonzero uniformSource draws upper 0) = exhausted :=
  law_pure (.ok none)

theorem law_drawNonzero_total (hu : Canonical upper) (h1 : 1 < upper.toInt) (draws rounds : Nat)
    {v : Nat} (hv : v ∈ Finset.Ico 1 upper.magnitude) :
    (upper.magnitude - 1 : Nat) *
        law (drawNonzero uniformSource draws upper rounds) (.ok (some (v : Int))) +
      law (drawNonzero uniformSource draws upper rounds) (.ok none) = 1 := by
  have h0 : 0 < upper.toInt := Int.zero_lt_one.trans h1
  have hm := toInt_of_pos h0
  have hcount : ((upper.magnitude - 1 : Nat) : ℝ≥0∞) + 1 = upper.magnitude := by
    exact_mod_cast (by omega : upper.magnitude - 1 + 1 = upper.magnitude)
  induction rounds with
  | zero =>
    rw [law_drawNonzero_zero, exhausted_some, exhausted_none, mul_zero, zero_add]
  | succ rounds ih =>
    rw [law_drawNonzero_succ hu h0, law_drawNonzero_succ hu h0, sum_delivery hv, sum_delivery_none,
      exhausted_some, exhausted_none]
    generalize law (drawNonzero uniformSource draws upper rounds) (.ok (some (v : Int))) = p at ih
    generalize law (drawNonzero uniformSource draws upper rounds) (.ok none) = q at ih
    calc ((upper.magnitude - 1 : Nat) : ℝ≥0∞) *
            (share upper draws * (p + 1) + refusal upper ^ draws * 0) +
          (share upper draws * (q + 0) + refusal upper ^ draws * 1)
        = share upper draws * ((upper.magnitude - 1 : Nat) * p + q) +
            (upper.magnitude - 1 : Nat) * share upper draws + refusal upper ^ draws := by ring
      _ = ((upper.magnitude - 1 : Nat) + 1) * share upper draws + refusal upper ^ draws := by
          rw [ih]
          ring
      _ = 1 := by rw [hcount, share_total]

/-- A round fails when its draws are used up, or when it comes to zero and the rounds that are left
fail. -/
theorem law_drawNonzero_none (hu : Canonical upper) (h1 : 1 < upper.toInt) (draws rounds : Nat) :
    law (drawNonzero uniformSource draws upper rounds) (.ok none) ≤
      2⁻¹ ^ rounds + 2 * 2⁻¹ ^ draws := by
  have h0 : 0 < upper.toInt := Int.zero_lt_one.trans h1
  induction rounds with
  | zero =>
    rw [law_drawNonzero_zero, exhausted_none, pow_zero]
    exact le_self_add
  | succ rounds ih =>
    have hrefusal : refusal upper ^ draws ≤ 2⁻¹ ^ draws := by
      gcongr
      exact refusal_le_half h0
    rw [law_drawNonzero_succ hu h0, sum_delivery_none, exhausted_none, add_zero, mul_one]
    calc share upper draws * law (drawNonzero uniformSource draws upper rounds) (.ok none) +
          refusal upper ^ draws
        ≤ 2⁻¹ * (2⁻¹ ^ rounds + 2 * 2⁻¹ ^ draws) + 2⁻¹ ^ draws := by
          gcongr
          exact share_le_half h1 draws
      _ = 2⁻¹ ^ (rounds + 1) + (2⁻¹ * 2) * 2⁻¹ ^ draws + 2⁻¹ ^ draws := by ring
      _ = 2⁻¹ ^ (rounds + 1) + 2 * 2⁻¹ ^ draws := by
          rw [ENNReal.inv_mul_cancel two_ne_zero ENNReal.ofNat_ne_top]
          ring

theorem law_draw_total (sampler : Sampler) (hu : Canonical upper)
    (h : sampler.least < upper.toInt) (draws : Nat) {v : Nat}
    (hv : v ∈ Finset.Ico sampler.least upper.magnitude) :
    (upper.magnitude - sampler.least : Nat) *
        law (sampler.draw uniformSource draws upper) (.ok (some (v : Int))) +
      law (sampler.draw uniformSource draws upper) (.ok none) = 1 := by
  cases sampler with
  | below =>
    rw [Sampler.draw, randomBelow_accepted _ _ hu h, law_drawBelow_some hu h draws hv,
      law_drawBelow_none hu h]
    exact share_total upper draws
  | nonzero =>
    rw [Sampler.draw, randomRange_accepted _ _ hu h]
    exact law_drawNonzero_total hu h draws draws hv

theorem law_draw_none (sampler : Sampler) (hu : Canonical upper)
    (h : sampler.least < upper.toInt) (draws : Nat) :
    law (sampler.draw uniformSource draws upper) (.ok none) ≤ 3 * 2⁻¹ ^ draws := by
  cases sampler with
  | below =>
    rw [Sampler.draw, randomBelow_accepted _ _ hu h, law_drawBelow_none hu h]
    calc refusal upper ^ draws ≤ 2⁻¹ ^ draws := by
          gcongr
          exact refusal_le_half h
      _ ≤ 3 * 2⁻¹ ^ draws := le_mul_of_one_le_left zero_le (by norm_num)
  | nonzero =>
    rw [Sampler.draw, randomRange_accepted _ _ hu h]
    calc law (drawNonzero uniformSource draws upper draws) (.ok none)
        ≤ 2⁻¹ ^ draws + 2 * 2⁻¹ ^ draws := law_drawNonzero_none hu h draws draws
      _ = 3 * 2⁻¹ ^ draws := by ring

/-! ## Exactness -/

/-- What exact sampling in a range is. From any source the first string that gives a number in the
range is delivered; of the strings equally many give each number, and at least half of them are
accepted, unless zero is left out below a power of two: then it is a quarter at least. From a
uniform source all numbers are equally likely, and the limit to the draws is as good as never
reached. -/
structure ExactSampling (sampler : Sampler) (upper : BigInt) : Prop where
  delivers : ∀ {σ : Type} (fill : Fill (StateM σ)),
    DeliversFirst fill (ceilDiv upper.bitLength 8) (InRange sampler.least upper)
      (candidate upper.bitLength) (fun draws => sampler.draw fill draws upper)
  cleared : ∀ bytes : Bytes, bytes.length = ceilDiv upper.bitLength 8 →
    Represents (candidate upper.bitLength bytes) (value bytes % 2 ^ upper.bitLength : Nat)
  each : ∀ v ∈ Finset.Ico sampler.least upper.magnitude,
    ((strings (ceilDiv upper.bitLength 8)).filter fun bytes =>
        (candidate upper.bitLength bytes).toInt = v).card =
      2 ^ (8 * ceilDiv upper.bitLength 8 - upper.bitLength)
  accepted : ((strings (ceilDiv upper.bitLength 8)).filter (InRange sampler.least upper)).card =
    2 ^ (8 * ceilDiv upper.bitLength 8 - upper.bitLength) * (upper.magnitude - sampler.least)
  half_strings : (strings (ceilDiv upper.bitLength 8)).card ≤
      2 * ((strings (ceilDiv upper.bitLength 8)).filter (InRange sampler.least upper)).card ↔
    (sampler = .nonzero → upper.magnitude ≠ 2 ^ (upper.bitLength - 1))
  quarter_strings : (strings (ceilDiv upper.bitLength 8)).card ≤
    4 * ((strings (ceilDiv upper.bitLength 8)).filter (InRange sampler.least upper)).card
  half_numbers : upper.magnitude ≤ 2 * (upper.magnitude - sampler.least)
  uniform : ∀ draws, ∀ v ∈ Finset.Ico sampler.least upper.magnitude,
    (upper.magnitude - sampler.least : Nat) *
        law (sampler.draw uniformSource draws upper) (.ok (some (v : Int))) +
      law (sampler.draw uniformSource draws upper) (.ok none) = 1
  unlimited : ∀ draws,
    law (sampler.draw uniformSource draws upper) (.ok none) ≤ 3 * 2⁻¹ ^ draws

theorem card_inRange (low : Nat) (h0 : 0 < upper.toInt) :
    ((strings (ceilDiv upper.bitLength 8)).filter (InRange low upper)).card =
      2 ^ (8 * ceilDiv upper.bitLength 8 - upper.bitLength) * (upper.magnitude - low) := by
  rw [← card_candidate_between (magnitude_lt upper).le, ← toInt_of_pos h0]
  rfl

/-- One string in `k` is accepted at least, if that is so of the numbers of the bound's length. -/
theorem strings_le_iff (low k : Nat) (h0 : 0 < upper.toInt) :
    (strings (ceilDiv upper.bitLength 8)).card ≤
        k * ((strings (ceilDiv upper.bitLength 8)).filter (InRange low upper)).card ↔
      2 ^ upper.bitLength ≤ k * (upper.magnitude - low) := by
  rw [card_inRange low h0, card_strings, strings_split (le_ceilDiv upper.bitLength), Nat.mul_comm,
    Nat.mul_left_comm]
  exact Nat.mul_le_mul_left_iff (Nat.two_pow_pos _)

theorem exact_sampling (sampler : Sampler) (hu : Canonical upper)
    (h : sampler.least < upper.toInt) : ExactSampling sampler upper := by
  have h0 : 0 < upper.toInt := (Int.natCast_nonneg _).trans_lt h
  have hm := toInt_of_pos h0
  have hlt := magnitude_lt upper
  have hhalf : 2 ^ upper.bitLength ≤ 2 * upper.magnitude := magnitude_half (by omega)
  have hnumbers : upper.magnitude ≤ 2 * (upper.magnitude - sampler.least) := by
    cases sampler <;> simp only [Sampler.least] at * <;> omega
  refine ⟨sampler.draw_delivers hu h, fun bytes => candidate_represents, fun v hv => ?each,
    card_inRange _ h0, (strings_le_iff _ 2 h0).trans ?half, (strings_le_iff _ 4 h0).mpr (by omega),
    hnumbers, fun draws v => law_draw_total sampler hu h draws, law_draw_none sampler hu h⟩
  case each => exact card_candidate_eq ((Finset.mem_Ico.mp hv).2.trans hlt)
  case half =>
    have hbits : upper.bitLength ≠ 0 := fun hz => by rw [hz] at hlt; omega
    have hpow : 2 ^ upper.bitLength = 2 * 2 ^ (upper.bitLength - 1) :=
      (mul_pow_sub_one hbits 2).symm
    cases sampler with
    | below =>
      refine iff_of_true hhalf fun hne => ?_
      cases hne
    | nonzero =>
      -- one number below its highest bit is missing, which only a power of two does not make up for
      rw [Sampler.least, hpow]
      refine ⟨fun hle _ => by omega, fun hne => ?_⟩
      have := hne rfl
      omega

structure ExactLength (bits : Nat) (odd : Bool) : Prop where
  delivers : ∀ {σ : Type} (fill : Fill (StateM σ)) {s t : σ} {bytes : Bytes},
    (fill (ceilDiv bits 8)).run s = (.ok bytes, t) →
      (randomBits fill bits odd).run s = (.ok (withEnds bits odd (clearExcess bits bytes)), t)
  failed : ∀ {σ : Type} (fill : Fill (StateM σ)) {s t : σ} {e : Fault},
    (fill (ceilDiv bits 8)).run s = (.error e, t) →
      (randomBits fill bits odd).run s = (.error .randomnessFailed, t)
  length : ∀ bytes : Bytes, bytes.length = ceilDiv bits 8 →
    Canonical (withEnds bits odd (clearExcess bits bytes)) ∧
      0 < (withEnds bits odd (clearExcess bits bytes)).toInt ∧
      (withEnds bits odd (clearExcess bits bytes)).bitLength = bits ∧
      (odd = true → (withEnds bits odd (clearExcess bits bytes)).isOdd = true)
  each : ∀ v : Nat, v.size = bits → (odd = true → v % 2 = 1) →
    ((strings (ceilDiv bits 8)).filter fun bytes =>
        (withEnds bits odd (clearExcess bits bytes)).toInt = v).card =
      2 ^ (8 * ceilDiv bits 8 - (bits - 1)) * if odd = true ∧ 1 < bits then 2 else 1

theorem exact_length {bits : Nat} (odd : Bool) (hbits : 1 ≤ bits) : ExactLength bits odd := by
  refine ⟨fun fill s t bytes read => ?delivers, fun fill s t e read => ?failed,
    fun bytes hbytes => ?length, fun v => card_withEnds odd hbits⟩
  case delivers =>
    rw [randomBits_eq fill odd hbits, run_bind_of read]
    rfl
  case failed =>
    rw [randomBits_eq fill odd hbits, run_bind_of read]
    rfl
  case length =>
    have hr := withEnds_represents odd hbits hbytes
    have hsize := forced_size odd (value bytes) hbits
    refine ⟨hr.canonical, ?_, ?_, ?_⟩
    · rw [hr.toInt_eq]
      have hpos := Nat.size_pos.mp (hsize ▸ hbits)
      exact_mod_cast hpos
    · rw [bitLength_eq, hr.magnitude_eq, hsize]
    · rintro rfl
      rw [isOdd_iff hr.canonical, hr.magnitude_eq]
      exact forced_odd bits (value bytes)

/-- Sampling below a bound is exact, with zero and without it, and so is drawing a number of some
length. A bound with nothing below it is refused, and the source is not asked. -/
theorem random_numbers_exact :
    (∀ (sampler : Sampler) (upper : BigInt), Canonical upper →
      (sampler.least < upper.toInt → ExactSampling sampler upper) ∧
      (upper.toInt ≤ sampler.least →
        ∀ {m : Type → Type} [Monad m] (fill : Fill m) (draws : Nat),
          sampler.draw fill draws upper = pure (.error .invalidInput))) ∧
    ∀ (bits : Nat) (odd : Bool), 1 ≤ bits → ExactLength bits odd :=
  ⟨fun sampler _ hu => ⟨exact_sampling sampler hu,
    fun h _ _ fill draws => sampler.draw_refused hu h fill draws⟩,
    fun _ odd hbits => exact_length odd hbits⟩

/-- Below five a byte gives its three lowest bits: seven is refused and three delivered, which 32
bytes give, and when the tape ends after the first byte the second read fails. -/
theorem random_numbers_exact_five :
    let upper : BigInt := ⟨[5, 0, 0, 0], 1, false, .secure⟩
    Canonical upper ∧
      (Sampler.nonzero.draw Replay.Tape.fill 9 upper).run ⟨[0xff, 0x0b], []⟩ =
        (.ok (some (candidate 3 [0x0b])), ⟨[], [1, 1]⟩) ∧
      (Sampler.below.draw Replay.Tape.fill 9 upper).run ⟨[0xff], []⟩ =
        (.error .randomnessFailed, ⟨[], [1, 1]⟩) ∧
      ((strings 1).filter fun bytes => (candidate 3 bytes).toInt = 3).card = 32 ∧
      Sampler.below.draw Replay.Tape.fill 9 zero = pure (.error .invalidInput) ∧
      ((strings 2).filter fun bytes =>
        (withEnds 9 true (clearExcess 9 bytes)).toInt = 0x101).card = 512 := by
  intro upper
  have hu : Canonical upper := ⟨by decide, rfl, by decide, by decide⟩
  obtain ⟨hsampling, hlength⟩ := random_numbers_exact
  have hbelow := (hsampling .below upper hu).1 (by decide)
  have hnonzero := (hsampling .nonzero upper hu).1 (by decide)
  have hbits : upper.bitLength = 3 := by decide
  have hunfit : ∀ low, ¬InRange low upper [0xff] := fun low h => absurd h.2 (by decide)
  have hfits : InRange 1 upper [0x0b] := by decide
  have hthree := hbelow.each 3 (by decide)
  have hall := hnonzero.delivers Replay.Tape.fill
  have hfew := hbelow.delivers Replay.Tape.fill
  rw [hbits, show ceilDiv 3 8 = 1 from rfl] at hthree hall hfew
  have hodd := (hlength 9 true (by decide)).each 0x101 ((size_eq_iff 0x101 8).mpr (by decide))
    (by decide)
  rw [show ceilDiv 9 8 = 2 from rfl] at hodd
  exact ⟨hu, hall.delivered (.refused rfl (hunfit 1) (.accepted rfl hfits)) (by decide),
    hfew.delivered (.refused rfl (hunfit 0) (.failed rfl)) (by decide), hthree,
    (hsampling .below zero zero_represents.canonical).2 (by decide) _ 9, hodd⟩

/-- Without zero there is only one below two: of the 256 strings of one byte 64 are accepted. -/
theorem range_at_two_accepts_quarter :
    let two : BigInt := ⟨[2, 0, 0, 0], 1, false, .secure⟩
    Canonical two ∧ 1 < two.toInt ∧ ceilDiv two.bitLength 8 = 1 ∧
      (∀ bytes ∈ strings 1,
        ((randomRange Replay.Tape.fill 1 two).run ⟨bytes, []⟩).1 =
          .ok (if InRange 1 two bytes then some (candidate 2 bytes) else none)) ∧
      (strings 1).card = 256 ∧ ((strings 1).filter (InRange 1 two)).card = 64 ∧
      ¬(strings 1).card ≤ 2 * ((strings 1).filter (InRange 1 two)).card := by
  intro two
  have hu : Canonical two := ⟨by decide, rfl, by decide, by decide⟩
  have hbits : two.bitLength = 2 := by decide
  have hlow : 1 < two.toInt := by decide
  have hall : (strings 1).card = 256 := card_strings 1
  have hfew : ((strings 1).filter (InRange 1 two)).card = 64 := by
    have hcard := card_inRange 1 (Int.zero_lt_one.trans hlow)
    rwa [hbits] at hcard
  refine ⟨hu, hlow, by rw [hbits]; rfl, fun bytes hbytes => ?_, hall, hfew, by omega⟩
  have hread : (Replay.Tape.fill (ceilDiv two.bitLength 8)).run ⟨bytes, []⟩ =
      (.ok bytes, ⟨[], [1]⟩) := by
    obtain ⟨b, rfl⟩ := List.length_eq_one_iff.mp (mem_strings.mp hbytes)
    rw [hbits]
    rfl
  have hone := Sampler.nonzero.draw_one hu hlow Replay.Tape.fill hread
  rw [hbits] at hone
  exact congrArg Prod.fst hone

end

end CryptoPrimitives.BigInt
