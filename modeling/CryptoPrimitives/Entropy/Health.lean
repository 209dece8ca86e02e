import CryptoPrimitives.Bytes
import CryptoPrimitives.Fault

/-!
# Continuous health tests of noise

The tests of SP 800-90B, 4.4. The repetition count test catches a source stuck on one value, the
adaptive proportion test one that favours the first value of a window. Run together, the second
sees only the samples that the first has let pass.
-/

set_option autoImplicit false

namespace CryptoPrimitives

namespace Health

def defaultRctCutoff : UInt32 := 21

def defaultAptWindow : UInt32 := 512

def defaultAptCutoff : UInt32 := 410

def startupSamples : Nat := 1024

end Health

abbrev Verdict (τ : Type) := Except Fault Unit × τ

/-! ## Repetition count -/

structure RepetitionCount where
  cutoff : UInt32
  last : Option UInt64
  run : UInt32
  deriving DecidableEq, Repr

namespace RepetitionCount

def create (cutoff : UInt32) : RepetitionCount := ⟨cutoff, none, 0⟩

def test (t : RepetitionCount) (sample : UInt64) : Verdict RepetitionCount :=
  if t.last = some sample then
    let t := { t with run := t.run + 1 }
    (if t.cutoff ≤ t.run then .error .entropyRctFailure else .ok (), t)
  else (.ok (), { t with last := some sample, run := 1 })

def reset (t : RepetitionCount) : RepetitionCount := create t.cutoff

end RepetitionCount

/-! ## Adaptive proportion -/

structure AdaptiveProportion where
  window : UInt32
  cutoff : UInt32
  reference : Option UInt64
  hits : UInt32
  seen : UInt32
  deriving DecidableEq, Repr

namespace AdaptiveProportion

def create (window cutoff : UInt32) : AdaptiveProportion := ⟨window, cutoff, none, 0, 0⟩

def reset (t : AdaptiveProportion) : AdaptiveProportion := create t.window t.cutoff

def count (t : AdaptiveProportion) : AdaptiveProportion :=
  let t := { t with seen := t.seen + 1 }
  if t.window ≤ t.seen then t.reset else t

def test (t : AdaptiveProportion) (sample : UInt64) : Verdict AdaptiveProportion :=
  match t.reference with
  | none => (.ok (), { t with reference := some sample, hits := 1, seen := 1 })
  | some reference =>
    if sample = reference then
      let t := { t with hits := t.hits + 1 }
      if t.cutoff ≤ t.hits then (.error .entropyAptFailure, t) else (.ok (), t.count)
    else (.ok (), t.count)

end AdaptiveProportion

/-! ## Both -/

structure HealthTests where
  rct : RepetitionCount
  apt : AdaptiveProportion
  deriving DecidableEq, Repr

namespace HealthTests

def create (rctCutoff aptWindow aptCutoff : UInt32) : HealthTests :=
  ⟨.create rctCutoff, .create aptWindow aptCutoff⟩

def standard : HealthTests :=
  create Health.defaultRctCutoff Health.defaultAptWindow Health.defaultAptCutoff

def feed (t : HealthTests) (sample : UInt64) : Verdict HealthTests :=
  match t.rct.test sample with
  | (.error e, rct) => (.error e, { t with rct })
  | (.ok (), rct) =>
    let (verdict, apt) := t.apt.test sample
    (verdict, ⟨rct, apt⟩)

def feedBytes (t : HealthTests) : Bytes → Verdict HealthTests
  | [] => (.ok (), t)
  | b :: bs =>
    match t.feed b.toUInt64 with
    | (.error e, t) => (.error e, t)
    | (.ok (), t) => feedBytes t bs

def reset (t : HealthTests) : HealthTests := ⟨t.rct.reset, t.apt.reset⟩

end HealthTests

end CryptoPrimitives
