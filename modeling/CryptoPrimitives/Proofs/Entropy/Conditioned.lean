import CryptoPrimitives.Proofs.Drbg.Counter
import CryptoPrimitives.Proofs.Entropy.Stream
import CryptoPrimitives.Proofs.Hash.Formula

/-!
# Conditioned output of a stream of noise

A request takes the stream from where the source stands, as many bytes for each block as credit it
in full, and no byte twice. How the source cuts the stream cannot be told from the answer.
-/

set_option autoImplicit false

namespace CryptoPrimitives

/-! ## One block -/

namespace Conditioner

theorem outputLen_pos (c : Conditioner) : 0 < c.outputLen := c.alg.function.outputSize_pos

theorem condition_eq (c : Conditioner) (raw : Bytes) :
    c.condition raw = c.alg.hash ([0x01] ++ CtrStandard.numeral 4 (8 * c.outputLen) ++ raw) := by
  rw [← CtrStandard.be32_numeral]
  exact congrArg Finished.out (Digest.finish_exact
    ⟨[0x01] ++ Bytes.be32 (8 * c.outputLen).toUInt32 ++ raw⟩ (Bytes.length_zeros _))

theorem length_condition (c : Conditioner) (raw : Bytes) :
    (c.condition raw).length = c.outputLen := by
  rw [condition_eq]
  exact c.alg.function.length_hash _

/-- The raw bytes of a block hold its bits and the margin. -/
theorem neededInput_credits (c : Conditioner) {minEntropy : Nat} (hclaim : 0 < minEntropy) :
    ∃ needed, c.neededInput minEntropy = some needed ∧ 0 < needed ∧
      8 * c.outputLen + 64 ≤ min minEntropy 8 * needed := by
  have hbits : 0 < min minEntropy 8 := Nat.lt_min.mpr ⟨hclaim, by decide⟩
  have hcredit := CtrStandard.le_ceilDiv_mul (8 * c.outputLen + marginBits) _ hbits
  refine ⟨_, if_neg (Nat.ne_of_gt hclaim), ?_, hcredit⟩
  refine Nat.pos_of_ne_zero fun hnone => ?_
  rw [hnone, Nat.mul_zero, marginBits] at hcredit
  omega

def pieces (c : Conditioner) (stream : Nat → UInt8) (start needed blocks : Nat) : Bytes :=
  (List.range blocks).flatMap fun k => c.condition (segment stream (start + k * needed) needed)

theorem pieces_succ (c : Conditioner) (stream : Nat → UInt8) (start needed blocks : Nat) :
    c.pieces stream start needed (blocks + 1) =
      c.condition (segment stream start needed) ++
        c.pieces stream (start + needed) needed blocks := by
  rw [pieces, List.range_succ_eq_map, List.flatMap_cons, List.flatMap_map, Nat.zero_mul,
    Nat.add_zero, pieces]
  simp only [Nat.succ_mul, Nat.add_right_comm _ needed, Nat.add_assoc]

theorem length_pieces (c : Conditioner) (stream : Nat → UInt8) (start needed blocks : Nat) :
    (c.pieces stream start needed blocks).length = blocks * c.outputLen := by
  induction blocks generalizing start with
  | zero => exact (Nat.zero_mul _).symm
  | succ blocks ih =>
    rw [pieces_succ, List.length_append, length_condition, ih, Nat.succ_mul, Nat.add_comm]

end Conditioner

/-! ## Block after block -/

namespace TestedEntropy

variable {ν : Type} [NoiseSource ν]

/-- What so many blocks leave, made of the stream from `start` on: all of them, or those whose raw
bytes end before the first byte that the tests refuse. -/
structure Conditioned (stream : Nat → UInt8) (t : TestedEntropy ν) (start needed blocks : Nat)
    (ended : Except Fault Unit × Bytes × TestedEntropy ν) : Prop where
  outcome : ended.1 = (examined t.health (segment stream start (blocks * needed))).1
  health : ended.2.2.health = (examined t.health (segment stream start (blocks * needed))).2
  full : (examined t.health (segment stream start (blocks * needed))).1 = .ok () →
    ended.2.1 = t.conditioner.pieces stream start needed blocks ∧
      StandsAt stream ended.2.2.source (start + blocks * needed)
  cut : ∀ {n e health}, n < blocks * needed → RefusedAt t.health stream start n e health →
    ended.2.1 = t.conditioner.pieces stream start needed (n / needed)

namespace Conditioned

variable {stream : Nat → UInt8} {t : TestedEntropy ν} {start needed : Nat}
  {health : Option HealthTests}

theorem nothing (hsource : StandsAt stream t.source start) :
    Conditioned stream t start needed 0 (.ok (), [], t) := by
  have hnone : examined t.health (segment stream start (0 * needed)) = (.ok (), t.health) := by
    rw [Nat.zero_mul]
    exact examined_nil _
  refine ⟨by rw [hnone], by rw [hnone], fun _ => ⟨rfl, ?_⟩, fun hn => ?_⟩
  · rw [Nat.zero_mul]
    exact hsource
  · rw [Nat.zero_mul] at hn
    exact absurd hn (Nat.not_lt_zero _)

theorem refused {e : Fault} (hrefuses : examined t.health (segment stream start needed) =
    (.error e, health)) (blocks : Nat) (c : Conditioner) (source : ν) :
    Conditioned stream t start needed (blocks + 1) (.error e, [], ⟨health, c, source⟩) := by
  have hwhole : examined t.health (segment stream start ((blocks + 1) * needed)) =
      (.error e, health) := by
    rw [Nat.succ_mul, Nat.add_comm, segment_add, examined_refuses hrefuses]
  refine ⟨by rw [hwhole], by rw [hwhole], fun haccepted => ?_, fun hn hfirst => ?_⟩
  · rw [hwhole] at haccepted
    cases haccepted
  · rw [Nat.div_eq_of_lt (hfirst.lt hrefuses)]
    rfl

theorem append {blocks : Nat} {source : ν} {ended : Except Fault Unit × Bytes × TestedEntropy ν}
    (hneeded : 0 < needed)
    (haccepts : examined t.health (segment stream start needed) = (.ok (), health))
    (hrest : Conditioned stream ⟨health, t.conditioner, source⟩ (start + needed) needed blocks
      ended) :
    Conditioned stream t start needed (blocks + 1)
      (ended.1, t.conditioner.condition (segment stream start needed) ++ ended.2.1, ended.2.2) := by
  have htotal : (blocks + 1) * needed = needed + blocks * needed := by
    rw [Nat.succ_mul, Nat.add_comm]
  have hwhole : examined t.health (segment stream start ((blocks + 1) * needed)) =
      examined health (segment stream (start + needed) (blocks * needed)) := by
    rw [htotal, segment_add, examined_accepts haccepts]
  refine ⟨?_, ?_, fun hok => ?_, fun hn hfirst => ?_⟩
  · rw [hwhole]
    exact hrest.outcome
  · rw [hwhole]
    exact hrest.health
  · rw [hwhole] at hok
    obtain ⟨hwritten, hsource⟩ := hrest.full hok
    rw [htotal, ← Nat.add_assoc]
    exact ⟨by rw [hwritten, Conditioner.pieces_succ], hsource⟩
  · -- The byte is refused behind the first block, which is one of those that are left.
    obtain ⟨hle, hfirst⟩ := hfirst.later haccepts
    have hn' := hrest.cut (by omega) hfirst
    rw [hn', Nat.div_eq_sub_div hneeded hle, Conditioner.pieces_succ]

end Conditioned

theorem conditionBlocks_stands {stream : Nat → UInt8} {blocks needed : Nat}
    {t : TestedEntropy ν} {raw : Bytes} {start : Nat} (hneeded : 0 < needed)
    (hraw : raw.length = needed) (hsource : StandsAt stream t.source start) :
    Conditioned stream t start needed blocks (conditionBlocks blocks raw t).val := by
  induction blocks generalizing t raw start with
  | zero => exact .nothing hsource
  | succ blocks ih =>
    have hfilled := gather_stands hsource raw
    have hconditioner := hfilled.conditioner
    have houtcome := hfilled.outcome
    have hhealth := hfilled.health
    have hafter := hfilled.source
    rw [hraw] at houtcome hhealth hafter
    rw [conditionBlocks]
    simp only [Recorded.val_bind]
    generalize (t.gather raw).val = ended at *
    obtain ⟨outcome, health, conditioner, source⟩ := ended
    dsimp only at hconditioner houtcome hhealth hafter
    rcases hverdict : examined t.health (segment stream start needed) with ⟨e | _, health'⟩
    · rw [hverdict] at houtcome hhealth
      subst houtcome hhealth
      exact .refused hverdict blocks conditioner source
    · rw [hverdict] at houtcome hhealth hafter
      subst houtcome hhealth hconditioner
      exact .append hneeded hverdict (ih (length_segment _ _ _) (hafter rfl))

theorem Conditioned.agree {ν' : Type} [NoiseSource ν'] {stream : Nat → UInt8}
    {health : Option HealthTests} {c : Conditioner} {source : ν} {source' : ν'}
    {start needed blocks : Nat} {ended : Except Fault Unit × Bytes × TestedEntropy ν}
    {ended' : Except Fault Unit × Bytes × TestedEntropy ν'}
    (h : Conditioned stream ⟨health, c, source⟩ start needed blocks ended)
    (h' : Conditioned stream ⟨health, c, source'⟩ start needed blocks ended') :
    ended.1 = ended'.1 ∧ ended.2.1 = ended'.2.1 ∧ ended.2.2.health = ended'.2.2.health := by
  refine ⟨h.outcome.trans h'.outcome.symm, ?_, h.health.trans h'.health.symm⟩
  rcases examined_segment health stream start (blocks * needed) with
    ⟨_, haccepts⟩ | ⟨n, hn, _, _, hfirst, -⟩
  · have hok := congrArg Prod.fst haccepts
    exact (h.full hok).1.trans (h'.full hok).1.symm
  · exact (h.cut hn hfirst).trans (h'.cut hn hfirst).symm

/-! ## A request -/

theorem read_needed {t : TestedEntropy ν} {needed : Nat}
    (hneeded : t.conditioner.neededInput (NoiseSource.minEntropy t.source) = some needed)
    (buffer : Bytes) :
    (EntropySource.read t buffer).val =
      let blocks := ceilDiv buffer.length t.conditioner.outputLen
      let ended := (conditionBlocks blocks (Bytes.zeros needed) t).val
      (⟨ended.2.1, ended.1.map fun _ => buffer.length⟩, ended.2.2) := by
  simp only [EntropySource.read, hneeded]
  rfl

theorem read_no_entropy {t : TestedEntropy ν} (hclaim : NoiseSource.minEntropy t.source = 0)
    (buffer : Bytes) :
    EntropySource.read t buffer = pure (⟨[], .error .entropySourceFailure⟩, t) := by
  have hnone : t.conditioner.neededInput (NoiseSource.minEntropy t.source) = none := if_pos hclaim
  simp only [EntropySource.read, hnone]

/-- A block that is begun begins within the buffer. -/
theorem mul_lt_of_lt_ceilDiv {k a size : Nat} (hsize : 0 < size) (hk : k < ceilDiv a size) :
    k * size < a := by
  have hle : (k + 1) * size ≤ a + size - 1 := (Nat.le_div_iff_mul_le hsize).mp hk
  rw [Nat.succ_mul] at hle
  omega

section answers

variable {stream : Nat → UInt8} {t : TestedEntropy ν} {start needed : Nat}

/-- All the bytes pass: the buffer is filled. -/
theorem read_met (hsource : StandsAt stream t.source start) (hpos : 0 < needed)
    (hneeded : t.conditioner.neededInput (NoiseSource.minEntropy t.source) = some needed)
    (buffer : Bytes) {health : Option HealthTests} (haccepts : examined t.health (segment stream
      start (ceilDiv buffer.length t.conditioner.outputLen * needed)) = (.ok (), health)) :
    let blocks := ceilDiv buffer.length t.conditioner.outputLen
    let answer := (EntropySource.read t buffer).val
    answer.1.outcome = .ok buffer.length ∧
      answer.1.buffer buffer =
        (t.conditioner.pieces stream start needed blocks).take buffer.length ∧
      answer.2.health = health ∧ StandsAt stream answer.2.source (start + blocks * needed) := by
  intro blocks answer
  have hended : Conditioned stream t start needed blocks
      (conditionBlocks blocks (Bytes.zeros needed) t).val :=
    conditionBlocks_stands hpos (Bytes.length_zeros _) hsource
  have hanswer : answer = _ := read_needed hneeded buffer
  obtain ⟨hwritten, hafter⟩ := hended.full (congrArg Prod.fst haccepts)
  have houtcome := hended.outcome
  have hhealth := hended.health
  rw [haccepts] at houtcome hhealth
  have hroom : buffer.length ≤ blocks * t.conditioner.outputLen := by
    rw [Nat.mul_comm]
    exact CtrStandard.le_ceilDiv_mul _ _ t.conditioner.outputLen_pos
  rw [hanswer]
  refine ⟨?_, ?_, hhealth, hafter⟩
  · dsimp only
    rw [houtcome]
    rfl
  · dsimp only
    rw [hwritten, Delivery.buffer, Bytes.overlay, Conditioner.length_pieces,
      List.drop_eq_nil_of_le hroom, List.append_nil]

/-- A byte is refused: the blocks before it are left, and the rest of the buffer as it was. -/
theorem read_refused (hsource : StandsAt stream t.source start) (hpos : 0 < needed)
    (hneeded : t.conditioner.neededInput (NoiseSource.minEntropy t.source) = some needed)
    (buffer : Bytes) {n : Nat} {e : Fault} {health : Option HealthTests}
    (hn : n < ceilDiv buffer.length t.conditioner.outputLen * needed)
    (hfirst : RefusedAt t.health stream start n e health) :
    let answer := (EntropySource.read t buffer).val
    answer.1.outcome = .error e ∧
      answer.1.buffer buffer = t.conditioner.pieces stream start needed (n / needed) ++
        buffer.drop (n / needed * t.conditioner.outputLen) ∧
      answer.2.health = health := by
  intro answer
  have hended : Conditioned stream t start needed
      (ceilDiv buffer.length t.conditioner.outputLen)
      (conditionBlocks _ (Bytes.zeros needed) t).val :=
    conditionBlocks_stands hpos (Bytes.length_zeros _) hsource
  have hanswer : answer = _ := read_needed hneeded buffer
  have hwritten := hended.cut hn hfirst
  have houtcome := hended.outcome
  have hhealth := hended.health
  rw [← Nat.add_sub_cancel' (Nat.succ_le_of_lt hn), segment_add,
    examined_refuses hfirst.refused] at houtcome hhealth
  have hwhole : n / needed < ceilDiv buffer.length t.conditioner.outputLen :=
    (Nat.div_lt_iff_lt_mul hpos).mpr hn
  have hroom := Nat.le_of_lt (mul_lt_of_lt_ceilDiv t.conditioner.outputLen_pos hwhole)
  rw [← t.conditioner.length_pieces stream start needed] at hroom
  rw [hanswer]
  refine ⟨?_, ?_, hhealth⟩
  · dsimp only
    rw [houtcome]
    rfl
  · dsimp only
    rw [hwritten, Delivery.buffer, Bytes.overlay_fits hroom, Conditioner.length_pieces]

end answers

/-- Two sources of one stream are answered alike, however they cut it. The blocks come from the
bytes of the stream in a row, none left out and none used twice, all of them tested in that order
and passed; or the first byte that the tests refuse decides the error. A source that claims nothing
is not asked. -/
theorem answer_is_of_the_stream {ν ν' : Type} [NoiseSource ν] [NoiseSource ν'] (c : Conditioner)
    (health : Option HealthTests) (stream : Nat → UInt8) (start : Nat) (buffer : Bytes) :
    (∀ (source : ν) (source' : ν'), StandsAt stream source start →
      StandsAt stream source' start →
      NoiseSource.minEntropy source = NoiseSource.minEntropy source' →
        let answer := (EntropySource.read (TestedEntropy.mk health c source) buffer).val
        let answer' := (EntropySource.read (TestedEntropy.mk health c source') buffer).val
        answer.1 = answer'.1 ∧ answer.2.health = answer'.2.health) ∧
    (∀ source : ν, StandsAt stream source start → 0 < NoiseSource.minEntropy source →
      ∃ needed, c.neededInput (NoiseSource.minEntropy source) = some needed ∧
        8 * c.outputLen + 64 ≤ min (NoiseSource.minEntropy source) 8 * needed ∧
        let blocks := ceilDiv buffer.length c.outputLen
        let answer := (EntropySource.read (TestedEntropy.mk health c source) buffer).val
        ((examined health (segment stream start (blocks * needed)) = (.ok (), answer.2.health) ∧
          answer.1.outcome = .ok buffer.length ∧
          answer.1.buffer buffer = (c.pieces stream start needed blocks).take buffer.length ∧
          StandsAt stream answer.2.source (start + blocks * needed)) ∨
        ∃ n < blocks * needed, ∃ e, RefusedAt health stream start n e answer.2.health ∧
          answer.1.outcome = .error e ∧
          answer.1.buffer buffer = c.pieces stream start needed (n / needed) ++
            buffer.drop (n / needed * c.outputLen))) ∧
    (∀ raw, c.condition raw =
      c.alg.hash ([0x01] ++ CtrStandard.numeral 4 (8 * c.outputLen) ++ raw)) ∧
    ∀ source : ν, NoiseSource.minEntropy source = 0 →
      EntropySource.read (TestedEntropy.mk health c source) buffer =
        pure (⟨[], .error .entropySourceFailure⟩, ⟨health, c, source⟩) := by
  refine ⟨fun source source' hsource hsource' hclaims => ?_, fun source hsource hclaim => ?_,
    c.condition_eq, fun source hnone => read_no_entropy hnone buffer⟩
  · intro answer answer'
    rcases Nat.eq_zero_or_pos (NoiseSource.minEntropy source) with hnone | hclaim
    · have hanswer : answer = _ := congrArg Recorded.val (read_no_entropy hnone buffer)
      have hanswer' : answer' = _ :=
        congrArg Recorded.val (read_no_entropy (hclaims.symm.trans hnone) buffer)
      rw [hanswer, hanswer']
      exact ⟨rfl, rfl⟩
    · obtain ⟨needed, hneeded, hpos, -⟩ := c.neededInput_credits hclaim
      have hanswer : answer = _ := read_needed hneeded buffer
      have hanswer' : answer' = _ := read_needed (hclaims ▸ hneeded) buffer
      rw [hanswer, hanswer']
      obtain ⟨houtcome, hwritten, hhealth⟩ := Conditioned.agree
        (conditionBlocks_stands (t := ⟨health, c, source⟩) hpos (Bytes.length_zeros _) hsource)
        (conditionBlocks_stands (t := ⟨health, c, source'⟩) hpos (Bytes.length_zeros _) hsource')
      refine ⟨?_, hhealth⟩
      dsimp only
      rw [houtcome, hwritten]
  · obtain ⟨needed, hneeded, hpos, hcredit⟩ := c.neededInput_credits hclaim
    refine ⟨needed, hneeded, hcredit, ?_⟩
    intro blocks answer
    rcases examined_segment health stream start (blocks * needed) with
      ⟨health', haccepts⟩ | ⟨n, hn, e, health', hfirst, -⟩
    · obtain ⟨hok, hbuffer, hhealth, hafter⟩ :=
        read_met (t := ⟨health, c, source⟩) hsource hpos hneeded buffer haccepts
      exact .inl ⟨haccepts.trans (Prod.ext rfl hhealth.symm), hok, hbuffer, hafter⟩
    · obtain ⟨herror, hbuffer, hhealth⟩ :=
        read_refused (t := ⟨health, c, source⟩) hsource hpos hneeded buffer hn hfirst
      exact .inr ⟨n, hn, e, hhealth ▸ hfirst, herror, hbuffer⟩

/-- One source delivers byte by byte, the other all that it is asked for and claims three more. -/
theorem answer_is_of_the_stream_cut :
    let bytewise : CutNoise := ⟨fun i => i.toUInt8, 8, fun _ => 0, fun _ => 0, 0, 0⟩
    let greedy : CutNoise := ⟨fun i => i.toUInt8, 8, fun _ => 99, fun _ => 3, 0, 0⟩
    let answer := fun source : CutNoise => (EntropySource.read
      (TestedEntropy.mk (some .standard) .default source) (Bytes.zeros 40)).val
    (answer bytewise).1 = (answer greedy).1 ∧
    (answer bytewise).1.outcome = .ok 40 ∧
    (answer bytewise).1.buffer (Bytes.zeros 40) =
      (Conditioner.default.pieces (fun i => i.toUInt8) 0 40 2).take 40 ∧
    (answer { bytewise with entropy := 0 }).1.outcome = .error .entropySourceFailure ∧
    (answer { bytewise with entropy := 0 }).2.source.reads = 0 := by
  intro bytewise greedy answer
  obtain ⟨halike, hanswer, -, hnone⟩ := @answer_is_of_the_stream CutNoise CutNoise _ _ .default
    (some .standard) (fun i => i.toUInt8) 0 (Bytes.zeros 40)
  obtain ⟨needed, hneeded, -, hfrom⟩ := hanswer bytewise bytewise.stands (by decide)
  have hforty : Conditioner.default.neededInput 8 = some 40 := by decide
  obtain rfl : 40 = needed := Option.some.inj (hforty.symm.trans hneeded)
  have haccepts : (examined (some .standard) (segment (fun i => i.toUInt8) 0 80)).1 = .ok () := by
    decide +kernel
  have hsilent := hnone { bytewise with entropy := 0 } rfl
  refine ⟨(halike bytewise greedy bytewise.stands greedy.stands rfl).1, ?_⟩
  rcases hfrom with ⟨-, hok, hbuffer, -⟩ | ⟨n, hn, e, hfirst, -⟩
  · refine ⟨hok, hbuffer, ?_, ?_⟩
    · exact congrArg (fun x => x.val.1.outcome) hsilent
    · exact congrArg (fun x => x.val.2.source.reads) hsilent
  · have hle : 80 ≤ n := (hfirst.later (Prod.ext haccepts rfl)).1
    exact absurd hn (Nat.not_lt.mpr hle)

end TestedEntropy

end CryptoPrimitives
