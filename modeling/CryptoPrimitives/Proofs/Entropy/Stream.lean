import CryptoPrimitives.Entropy.Tested
import CryptoPrimitives.Proofs.Entropy.FirstFailure

/-!
# Noise as an endless stream

A source that never runs dry hands out one stream of bytes, in reads of whatever size it likes. A
raw buffer is filled with the next piece of the stream, and the health tests see just that piece,
wherever the source has cut it.
-/

set_option autoImplicit false

namespace CryptoPrimitives

/-! ## Pieces of a stream -/

def segment (stream : Nat → UInt8) (start count : Nat) : Bytes :=
  (List.range count).map fun i => stream (start + i)

@[simp] theorem length_segment (stream : Nat → UInt8) (start count : Nat) :
    (segment stream start count).length = count := by
  rw [segment, List.length_map, List.length_range]

theorem segment_add (stream : Nat → UInt8) (start m n : Nat) :
    segment stream start (m + n) = segment stream start m ++ segment stream (start + m) n := by
  rw [segment, List.range_add, List.map_append, List.map_map]
  simp only [segment, Function.comp_def, Nat.add_assoc]

/-- Written over the front of a buffer, a piece stands there. -/
theorem take_overlay_segment (stream : Nat → UInt8) (start : Nat) {count : Nat} {buffer : Bytes}
    (hcount : count ≤ buffer.length) :
    (Bytes.overlay (segment stream start count) buffer).take count =
      segment stream start count := by
  have hwhole := length_segment stream start count
  have hfits : (segment stream start count).length ≤ buffer.length := by
    rw [hwhole]
    exact hcount
  rw [Bytes.overlay, List.take_of_length_le hfits, List.take_left' hwhole]

/-! ## Sources that hand out a stream -/

section

variable {ν : Type} [NoiseSource ν]

/-- Where it stands, such a source answers a read that has room with the next bytes of the stream,
one at least, and stands behind them. It may claim more than there was room for. -/
structure HandsOut (stream : Nat → UInt8) (At : ν → Nat → Prop) : Prop where
  next : ∀ {source start buffer}, At source start → buffer ≠ [] →
    ∃ claimed, 0 < claimed ∧
      (NoiseSource.read source buffer).val.1.outcome = .ok claimed ∧
      ((NoiseSource.read source buffer).val.1.buffer buffer).take (min claimed buffer.length) =
        segment stream start (min claimed buffer.length) ∧
      At (NoiseSource.read source buffer).val.2 (start + min claimed buffer.length)

def StandsAt (stream : Nat → UInt8) (source : ν) (start : Nat) : Prop :=
  ∃ At : ν → Nat → Prop, HandsOut stream At ∧ At source start

theorem StandsAt.next {stream : Nat → UInt8} {source : ν} {start : Nat}
    (hsource : StandsAt stream source start) {buffer : Bytes} (hbuffer : buffer ≠ []) :
    ∃ claimed, 0 < claimed ∧
      (NoiseSource.read source buffer).val.1.outcome = .ok claimed ∧
      ((NoiseSource.read source buffer).val.1.buffer buffer).take (min claimed buffer.length) =
        segment stream start (min claimed buffer.length) ∧
      StandsAt stream (NoiseSource.read source buffer).val.2
        (start + min claimed buffer.length) := by
  obtain ⟨At, hands, hat⟩ := hsource
  obtain ⟨claimed, hpos, hok, hbytes, hafter⟩ := hands.next hat hbuffer
  exact ⟨claimed, hpos, hok, hbytes, At, hands, hafter⟩

end

theorem SystemEntropy.stands (source : SystemEntropy) :
    StandsAt source.supply source source.drawn := by
  refine ⟨fun s start => s.supply = source.supply ∧ s.drawn = start, ⟨?_⟩, rfl, rfl⟩
  rintro s _ buffer ⟨hsupply, rfl⟩ hbuffer
  refine ⟨buffer.length, List.length_pos_iff.mpr hbuffer, rfl, ?_, hsupply, ?_⟩
  · rw [Nat.min_self, ← hsupply]
    exact take_overlay_segment s.supply s.drawn (Nat.le_refl _)
  · rw [Nat.min_self]
    rfl

structure CutNoise where
  stream : Nat → UInt8
  entropy : Nat
  sizes : Nat → Nat
  excess : Nat → Nat
  drawn : Nat
  reads : Nat

namespace CutNoise

def count (source : CutNoise) (room : Nat) : Nat := min (source.sizes source.reads + 1) room

def claim (source : CutNoise) (room : Nat) : Nat :=
  source.count room + if source.count room = room then source.excess source.reads else 0

instance : NoiseSource CutNoise where
  name _ := "cut"
  minEntropy source := source.entropy
  read source buffer :=
    let count := source.count buffer.length
    pure (⟨segment source.stream source.drawn count, .ok (source.claim buffer.length)⟩,
      { source with drawn := source.drawn + count, reads := source.reads + 1 })

theorem min_claim (source : CutNoise) (room : Nat) :
    min (source.claim room) room = source.count room := by
  have hroom : source.count room ≤ room := Nat.min_le_right _ _
  rw [claim]
  split <;> omega

theorem stands (source : CutNoise) : StandsAt source.stream source source.drawn := by
  refine ⟨fun s start => s.stream = source.stream ∧ s.drawn = start, ⟨?_⟩, rfl, rfl⟩
  rintro s _ buffer ⟨hstream, rfl⟩ hbuffer
  have hroom : 0 < buffer.length := List.length_pos_iff.mpr hbuffer
  have hcount : s.count buffer.length ≤ buffer.length := Nat.min_le_right _ _
  have hpos : 0 < s.count buffer.length := Nat.lt_min.mpr ⟨Nat.succ_pos _, hroom⟩
  rw [← hstream]
  refine ⟨s.claim buffer.length, Nat.lt_of_lt_of_le hpos (Nat.le_add_right _ _), rfl, ?_, rfl, ?_⟩
  · rw [s.min_claim]
    exact take_overlay_segment s.stream s.drawn hcount
  · rw [s.min_claim]
    rfl

end CutNoise

/-! ## The tests along a stream -/

def examined : Option HealthTests → Bytes → Verdict (Option HealthTests)
  | none, _ => (.ok (), none)
  | some health, bytes => ((health.feedBytes bytes).1, some (health.feedBytes bytes).2)

theorem examined_nil (health : Option HealthTests) : examined health [] = (.ok (), health) := by
  cases health <;> rfl

theorem examined_append (health : Option HealthTests) (xs ys : Bytes) :
    examined health (xs ++ ys) =
      match examined health xs with
      | (.error e, health) => (.error e, health)
      | (.ok (), health) => examined health ys := by
  cases health with
  | none => rfl
  | some health =>
    simp only [examined, HealthTests.feedBytes_eq, List.map_append, HealthTests.feedAll_append]
    rcases health.feedAll (xs.map UInt8.toUInt64) with ⟨_ | _, health'⟩ <;> rfl

theorem examined_accepts {health health' : Option HealthTests} {xs : Bytes}
    (haccepts : examined health xs = (.ok (), health')) (ys : Bytes) :
    examined health (xs ++ ys) = examined health' ys := by
  rw [examined_append, haccepts]

theorem examined_refuses {health health' : Option HealthTests} {xs : Bytes} {e : Fault}
    (hrefuses : examined health xs = (.error e, health')) (ys : Bytes) :
    examined health (xs ++ ys) = (.error e, health') := by
  rw [examined_append, hrefuses]

structure RefusedAt (health : Option HealthTests) (stream : Nat → UInt8) (start n : Nat)
    (e : Fault) (health' : Option HealthTests) : Prop where
  before : (examined health (segment stream start n)).1 = .ok ()
  refused : examined health (segment stream start (n + 1)) = (.error e, health')

/-- Either every byte passes or there is a first that does not, and nothing behind it counts. -/
theorem examined_segment (health : Option HealthTests) (stream : Nat → UInt8) (start count : Nat) :
    (∃ health', examined health (segment stream start count) = (.ok (), health')) ∨
      ∃ n < count, ∃ e health', RefusedAt health stream start n e health' ∧
        examined health (segment stream start count) = (.error e, health') := by
  induction count with
  | zero => exact .inl ⟨health, examined_nil health⟩
  | succ count ih =>
    rcases ih with ⟨health', haccepts⟩ | ⟨n, hn, e, health', hfirst, hrefuses⟩
    · rcases hlast : examined health (segment stream start (count + 1)) with ⟨e | _, health''⟩
      · exact .inr ⟨count, Nat.lt_succ_self count, e, health'',
          ⟨congrArg Prod.fst haccepts, hlast⟩, rfl⟩
      · exact .inl ⟨health'', rfl⟩
    · refine .inr ⟨n, Nat.lt_succ_of_lt hn, e, health', hfirst, ?_⟩
      rw [segment_add, examined_refuses hrefuses]

namespace RefusedAt

variable {health health' : Option HealthTests} {stream : Nat → UInt8} {start n : Nat} {e : Fault}

theorem lt (hfirst : RefusedAt health stream start n e health') {m : Nat} {e' : Fault}
    {health'' : Option HealthTests}
    (hrefuses : examined health (segment stream start m) = (.error e', health'')) : n < m := by
  refine Nat.lt_of_not_le fun hle => ?_
  have hbefore := hfirst.before
  rw [← Nat.add_sub_cancel' hle, segment_add, examined_refuses hrefuses] at hbefore
  cases hbefore

theorem later (hfirst : RefusedAt health stream start n e health') {m : Nat}
    {health'' : Option HealthTests}
    (haccepts : examined health (segment stream start m) = (.ok (), health'')) :
    m ≤ n ∧ RefusedAt health'' stream (start + m) (n - m) e health' := by
  have hle : m ≤ n := by
    refine Nat.le_of_not_lt fun hlt => ?_
    rw [← Nat.add_sub_cancel' (Nat.succ_le_of_lt hlt), segment_add,
      examined_refuses hfirst.refused] at haccepts
    cases haccepts
  have hbefore := hfirst.before
  have hrefused := hfirst.refused
  rw [← Nat.add_sub_cancel' hle, segment_add, examined_accepts haccepts] at hbefore
  rw [← Nat.add_sub_cancel' hle, Nat.add_assoc, segment_add, examined_accepts haccepts] at hrefused
  exact ⟨hle, hbefore, hrefused⟩

end RefusedAt

/-! ## A raw buffer filled -/

namespace TestedEntropy

variable {ν : Type}

theorem examine_eq (t : TestedEntropy ν) (fresh : Bytes) :
    t.examine fresh =
      ((examined t.health fresh).1, { t with health := (examined t.health fresh).2 }) := by
  obtain ⟨_ | health, conditioner, source⟩ := t <;> rfl

variable [NoiseSource ν]

structure Filled (stream : Nat → UInt8) (t : TestedEntropy ν) (start : Nat) (filled : Bytes)
    (count : Nat) (ended : Except Fault Bytes × TestedEntropy ν) : Prop where
  outcome : ended.1 = (examined t.health (segment stream start count)).1.map
    fun _ => filled ++ segment stream start count
  health : ended.2.health = (examined t.health (segment stream start count)).2
  conditioner : ended.2.conditioner = t.conditioner
  source : (examined t.health (segment stream start count)).1 = .ok () →
    StandsAt stream ended.2.source (start + count)

namespace Filled

variable {stream : Nat → UInt8} {t : TestedEntropy ν} {start m : Nat} {filled : Bytes}
  {health : Option HealthTests}

theorem nothing (hsource : StandsAt stream t.source start) :
    Filled stream t start filled 0 (.ok filled, t) := by
  have hnone : examined t.health (segment stream start 0) = (.ok (), t.health) := examined_nil _
  refine ⟨?_, ?_, rfl, fun _ => hsource⟩
  · rw [hnone]
    exact congrArg Except.ok (List.append_nil filled).symm
  · rw [hnone]

theorem refused {e : Fault} (hrefuses : examined t.health (segment stream start m) =
    (.error e, health)) (n : Nat) (source : ν) :
    Filled stream t start filled (m + n) (.error e, ⟨health, t.conditioner, source⟩) := by
  have hwhole : examined t.health (segment stream start (m + n)) = (.error e, health) := by
    rw [segment_add, examined_refuses hrefuses]
  refine ⟨?_, ?_, rfl, fun haccepted => ?_⟩
  · rw [hwhole]
    rfl
  · rw [hwhole]
  · rw [hwhole] at haccepted
    cases haccepted

theorem append {n : Nat} {source : ν} {ended : Except Fault Bytes × TestedEntropy ν}
    (haccepts : examined t.health (segment stream start m) = (.ok (), health))
    (hrest : Filled stream ⟨health, t.conditioner, source⟩ (start + m)
      (filled ++ segment stream start m) n ended) :
    Filled stream t start filled (m + n) ended := by
  have hwhole : examined t.health (segment stream start (m + n)) =
      examined health (segment stream (start + m) n) := by
    rw [segment_add, examined_accepts haccepts]
  refine ⟨?_, ?_, hrest.conditioner, fun hok => ?_⟩
  · rw [hwhole, segment_add, ← List.append_assoc]
    exact hrest.outcome
  · rw [hwhole]
    exact hrest.health
  · rw [hwhole] at hok
    rw [← Nat.add_assoc]
    exact hrest.source hok

end Filled

theorem fillTested_read {t : TestedEntropy ν} {rest : Bytes} {claimed : Nat} (hrest : rest ≠ [])
    (hclaimed : 0 < claimed)
    (hok : (NoiseSource.read t.source rest).val.1.outcome = .ok claimed) (reads : Nat)
    (filled : Bytes) :
    (fillTested (reads + 1) t filled rest).val =
      let answer := (NoiseSource.read t.source rest).val
      let left := answer.1.buffer rest
      let fresh := left.take (min claimed rest.length)
      match { t with source := answer.2 }.examine fresh with
      | (.error e, t) => (.error e, t)
      | (.ok (), t) =>
        (fillTested reads t (filled ++ fresh) (left.drop (min claimed rest.length))).val := by
  have hroom : min claimed rest.length ≠ 0 := by
    have := List.length_pos_iff.mpr hrest
    omega
  have hkept : ((NoiseSource.read t.source rest).val.1.buffer rest).length = rest.length :=
    Bytes.length_overlay _ _
  have hempty : ¬ rest.isEmpty = true := fun h => hrest (List.isEmpty_iff.mp h)
  rw [fillTested, if_neg hempty]
  simp only [Recorded.val_bind, hok, hkept, if_neg hroom]
  rcases TestedEntropy.examine _ _ with ⟨_ | _, t'⟩ <;> rfl

theorem fillTested_stands {stream : Nat → UInt8} {reads : Nat} {t : TestedEntropy ν}
    {filled rest : Bytes} {start : Nat} (hsource : StandsAt stream t.source start)
    (hreads : rest.length < reads) :
    Filled stream t start filled rest.length (fillTested reads t filled rest).val := by
  induction reads generalizing t filled rest start with
  | zero => exact absurd hreads (Nat.not_lt_zero _)
  | succ reads ih =>
    by_cases hrest : rest = []
    · subst hrest
      exact .nothing hsource
    · -- A read takes one byte at least off what is missing, so the reads suffice.
      obtain ⟨claimed, hclaimed, hok, hbytes, hafter⟩ := hsource.next hrest
      have hroom : 0 < rest.length := List.length_pos_iff.mpr hrest
      have hleft : (((NoiseSource.read t.source rest).val.1.buffer rest).drop
          (min claimed rest.length)).length = rest.length - min claimed rest.length := by
        rw [List.length_drop, Delivery.buffer, Bytes.length_overlay]
      have hfewer : (((NoiseSource.read t.source rest).val.1.buffer rest).drop
          (min claimed rest.length)).length < reads := by
        rw [hleft]
        omega
      have hsplit : min claimed rest.length + (rest.length - min claimed rest.length) =
          rest.length := Nat.add_sub_cancel' (Nat.min_le_right _ _)
      rw [fillTested_read hrest hclaimed hok]
      dsimp only
      rw [hbytes, examine_eq]
      rcases hverdict : examined t.health (segment stream start (min claimed rest.length))
        with ⟨e | _, health⟩
      · have hrefused : Filled stream t start filled _ (.error e, ⟨health, t.conditioner, _⟩) :=
          .refused hverdict (rest.length - min claimed rest.length)
            (NoiseSource.read t.source rest).val.2
        rwa [hsplit] at hrefused
      · have htail : Filled stream t start filled _ (fillTested reads ⟨health, t.conditioner, _⟩
            (filled ++ segment stream start (min claimed rest.length)) _).val :=
          .append hverdict (ih hafter hfewer)
        rwa [hleft, hsplit] at htail

theorem gather_stands {stream : Nat → UInt8} {t : TestedEntropy ν} {start : Nat}
    (hsource : StandsAt stream t.source start) (raw : Bytes) :
    Filled stream t start [] raw.length (t.gather raw).val :=
  fillTested_stands hsource (Nat.lt_succ_self _)

end TestedEntropy

end CryptoPrimitives
