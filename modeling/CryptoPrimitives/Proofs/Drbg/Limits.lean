import CryptoPrimitives.Proofs.Drbg.Calls

/-!
# When a request is served

What a generator looks at before it serves a request, apart from the additional input, and the
order of its refusals.
-/

set_option autoImplicit false

namespace CryptoPrimitives

structure DrbgStatus where
  live : Bool
  strict : Bool
  counter : UInt64
  interval : UInt64
  deriving DecidableEq, Repr

namespace Drbg

theorem saturatingAdd_toNat (a b : UInt64) :
    (saturatingAdd a b).toNat = min (a.toNat + b.toNat) (2 ^ 64 - 1) := by
  have ha := a.toNat_lt
  have hb := b.toNat_lt
  unfold saturatingAdd
  split
  · rename_i hfits
    rw [UInt64.size] at hfits
    rw [UInt64.toNat_add]
    omega
  · rename_i hover
    rw [UInt64.size] at hover
    have hmax : (0xffffffffffffffff : UInt64).toNat = 2 ^ 64 - 1 := by decide
    rw [hmax]
    omega

/-- The number of calls as a word, which holds every length that a buffer can have. -/
theorem calls_word (length : Nat) (hlen : length < 2 ^ 64) :
    (calls length - 1).toUInt64.toNat = calls length - 1 ∧ 1 ≤ calls length := by
  have hone : 1 ≤ calls length := Nat.le_max_left _ _
  have hmany : calls length ≤ 2 ^ 48 := by
    unfold calls ceilDiv maxRequest
    omega
  refine ⟨?_, hone⟩
  rw [Nat.toUInt64, UInt64.toNat_ofNat']
  omega

theorem calls_single {length : Nat} (hlen : length ≤ maxRequest) : calls length = 1 := by
  unfold calls ceilDiv maxRequest at *
  omega

def Exceeds (counter interval : UInt64) (length : Nat) : Prop :=
  interval.toNat < min (counter.toNat + (calls length - 1)) (2 ^ 64 - 1)

theorem interval_exceeded (counter interval : UInt64) {length : Nat} (hlen : length < 2 ^ 64) :
    interval < saturatingAdd counter (calls length - 1).toUInt64 ↔
      Exceeds counter interval length := by
  rw [UInt64.lt_iff_toNat_lt, saturatingAdd_toNat, (calls_word length hlen).1]
  rfl

theorem exceeds_single (counter interval : UInt64) {length : Nat} (hlen : length ≤ maxRequest) :
    Exceeds counter interval length ↔ interval < counter := by
  have hc := counter.toNat_lt
  rw [Exceeds, calls_single hlen, UInt64.lt_iff_toNat_lt]
  omega

end Drbg

namespace DrbgStatus

def check (s : DrbgStatus) (length : Nat) : Except Fault Unit := do
  Drbg.requireLive s.live
  Drbg.requireLength s.strict length
  Drbg.requireInterval s.counter s.interval length

def Takes (s : DrbgStatus) (length : Nat) : Prop :=
  Drbg.requireLive s.live = .ok () ∧ Drbg.requireLength s.strict length = .ok ()

theorem takes_iff (s : DrbgStatus) (length : Nat) :
    s.Takes length ↔ s.live = true ∧ (s.strict = true → length ≤ Drbg.maxRequest) := by
  unfold Takes Drbg.requireLive Drbg.requireLength
  cases s.live <;> cases s.strict <;> simp

/-- The interval decides once liveness and length have been accepted. -/
theorem Takes.check {s : DrbgStatus} {length : Nat} (h : s.Takes length) (hlen : length < 2 ^ 64) :
    (Drbg.Exceeds s.counter s.interval length ∧ s.check length = .error .drbgReseedRequired) ∨
      (¬Drbg.Exceeds s.counter s.interval length ∧ s.check length = .ok ()) := by
  have hlast : ∀ first second last : Except Fault Unit, first = .ok () → second = .ok () →
      (do first; second; last) = last := by
    intro first second last hfirst hsecond
    rw [hfirst, hsecond]
    rfl
  have hcheck : s.check length = Drbg.requireInterval s.counter s.interval length :=
    hlast _ _ _ h.1 h.2
  rw [hcheck, Drbg.requireInterval]
  have hiff := Drbg.interval_exceeded s.counter s.interval hlen
  split
  · rename_i hover
    exact .inl ⟨hiff.mp hover, rfl⟩
  · rename_i hover
    exact .inr ⟨fun hx => hover (hiff.mpr hx), rfl⟩

theorem check_refused {s : DrbgStatus} {length : Nat} (h : ¬s.Takes length) :
    s.check length = .error .drbgInvalidState ∨
      s.check length = .error (.drbgRequestTooLarge Drbg.maxRequest length) := by
  rw [takes_iff] at h
  unfold check Drbg.requireLive Drbg.requireLength
  cases hlive : s.live with
  | false => exact .inl rfl
  | true =>
    right
    have hlong : s.strict = true ∧ Drbg.maxRequest < length := by
      simpa [hlive] using h
    simp only [if_true, hlong.1, Bool.true_and, decide_eq_true hlong.2]
    rfl

theorem check_ok_iff (s : DrbgStatus) {length : Nat} (hlen : length < 2 ^ 64) :
    s.check length = .ok () ↔ s.Takes length ∧ ¬Drbg.Exceeds s.counter s.interval length := by
  by_cases ht : s.Takes length
  · rcases ht.check hlen with ⟨hx, hc⟩ | ⟨hx, hc⟩ <;> simp [ht, hx, hc]
  · rcases check_refused ht with hc | hc <;> simp [ht, hc]

theorem check_required_iff (s : DrbgStatus) {length : Nat} (hlen : length < 2 ^ 64) :
    s.check length = .error .drbgReseedRequired ↔
      s.Takes length ∧ Drbg.Exceeds s.counter s.interval length := by
  by_cases ht : s.Takes length
  · rcases ht.check hlen with ⟨hx, hc⟩ | ⟨hx, hc⟩ <;> simp [ht, hx, hc]
  · rcases check_refused ht with hc | hc <;> simp [ht, hc]

end DrbgStatus

end CryptoPrimitives
