import CryptoPrimitives.Proofs.Units.Prefix

/-!
# Access to operands limb by limb

What an operation does to its operands while it runs: it checks, it reads and stores single limbs,
and it hands a part of an operand to another operation. An access outside a slice stops it, and so
does arithmetic that leaves a limb; the operands stay as they are at that moment. Every store is
recorded with its place. Lengths and places are natural numbers.
-/

set_option autoImplicit false

namespace CryptoPrimitives.Units

inductive Operand
  | target
  | left
  | right
  deriving DecidableEq, Repr

abbrev Operands := Operand → Units

def Operands.put (m : Operands) (p : Operand) (us : Units) : Operands :=
  fun q => if q = p then us else m q

namespace Operands

variable (m : Operands) (p : Operand) (us vs : Units)

@[simp] theorem put_self : m.put p us p = us := if_pos rfl

@[simp] theorem put_put : (m.put p us).put p vs = m.put p vs := by
  funext q
  by_cases h : q = p <;> simp [put, h]

@[simp] theorem put_same : m.put p (m p) = m := by
  funext q
  by_cases h : q = p <;> simp [put, h]

variable {p}

theorem put_other {q : Operand} (h : q ≠ p) : m.put p us q = m q := if_neg h

/-- Of two operands put again, the earlier contents are gone. -/
theorem put_both {q : Operand} (h : q ≠ p) (us' vs' : Units) :
    (((m.put p us).put q vs).put p us').put q vs' = (m.put p us').put q vs' := by
  funext o
  by_cases hp : o = p
  · simp [put, hp, h.symm]
  · by_cases hq : o = q <;> simp [put, hp, hq]

end Operands

/-- A slice with what lies on either side. -/
theorem slice_split (us : Units) {low high : Nat} (h : low ≤ high) :
    us = us.take low ++ (us.take high).drop low ++ us.drop high := by
  have hfront : us.take low = (us.take high).take low := by
    rw [List.take_take, Nat.min_eq_left h]
  rw [hfront, List.take_append_drop, List.take_append_drop]

/-- A window of `n` limbs from limb `i` on, and the limb above it. -/
theorem window_at (us : Units) {i n : Nat} (h : i + n < us.length) :
    ∃ low window slot high, us = low ++ window ++ slot :: high ∧ low.length = i ∧
      window.length = n := by
  have hne : us.drop (i + n) ≠ [] := by
    rw [Ne, List.drop_eq_nil_iff]
    omega
  obtain ⟨slot, high, hhigh⟩ := List.exists_cons_of_ne_nil hne
  have hsplit := slice_split us (Nat.le_add_right i n)
  rw [hhigh] at hsplit
  refine ⟨us.take i, (us.take (i + n)).drop i, slot, high, hsplit, ?_, ?_⟩
  · rw [List.length_take]
    omega
  · rw [List.length_drop, List.length_take]
    omega

inductive Stop
  | refused (failure : Precondition)
  | range (low high held : Nat)
  | index (i held : Nat)
  | overflow
  deriving DecidableEq, Repr

structure Stored where
  operand : Operand
  index : Nat
  deriving DecidableEq, Repr

def Stored.past (p : Operand) (low : Nat) (e : Stored) : Stored :=
  if e.operand = p then ⟨p, low + e.index⟩ else e

structure Outcome (α : Type) where
  result : Except Stop α
  operands : Operands
  stores : List Stored

def Access (α : Type) := Operands → Outcome α

namespace Access

variable {α β : Type}

def bind (x : Access α) (f : α → Access β) : Access β := fun m =>
  match x m with
  | ⟨.error stop, m, stores⟩ => ⟨.error stop, m, stores⟩
  | ⟨.ok a, m, stores⟩ => ⟨(f a m).result, (f a m).operands, stores ++ (f a m).stores⟩

instance : Monad Access where
  pure a := fun m => ⟨.ok a, m, []⟩
  bind := bind

def stop (why : Stop) : Access α := fun m => ⟨.error why, m, []⟩

def fitting : Option α → Access α
  | some a => pure a
  | none => stop .overflow

def load (p : Operand) (i : Nat) : Access Limb := fun m =>
  match (m p)[i]? with
  | some u => ⟨.ok u, m, []⟩
  | none => ⟨.error (.index i (m p).length), m, []⟩

def store (p : Operand) (i : Nat) (u : Limb) : Access Unit := fun m =>
  if i < (m p).length then ⟨.ok (), m.put p ((m p).set i u), [⟨p, i⟩]⟩
  else ⟨.error (.index i (m p).length), m, []⟩

def front (p : Operand) (n : Nat) : Access Unit := fun m =>
  if n ≤ (m p).length then ⟨.ok (), m, []⟩ else ⟨.error (.range 0 n (m p).length), m, []⟩

def within (p : Operand) (low high : Nat) (x : Access α) : Access α := fun m =>
  if low ≤ high ∧ high ≤ (m p).length then
    let o := x (m.put p (((m p).take high).drop low))
    ⟨o.result, o.operands.put p ((m p).take low ++ o.operands p ++ (m p).drop high),
      o.stores.map (Stored.past p low)⟩
  else ⟨.error (.range low high (m p).length), m, []⟩

def beyond (p : Operand) (low : Nat) (x : Access α) : Access α := fun m =>
  within p low (m p).length x m

/-! ## Preconditions -/

inductive Check
  | holds (name : String) (p : Operand) (required : Nat)
  | demand (condition : Bool) (failure : Precondition)
  deriving DecidableEq, Repr

def Check.failure? (m : Operands) : Check → Option Precondition
  | .holds name p required =>
    if required ≤ (m p).length then none else some (.short name (m p).length required)
  | .demand condition failure => if condition then none else some failure

def firstFailure (m : Operands) (checks : List Check) : Option Precondition :=
  checks.findSome? (Check.failure? m)

section FirstFailure

variable (m : Operands) (name : String) (p : Operand) (n : Nat) (condition : Bool)
  (failure : Precondition) (checks : List Check)

@[simp] theorem firstFailure_nil : firstFailure m [] = none := rfl

@[simp] theorem firstFailure_holds : firstFailure m (.holds name p n :: checks) =
    if n ≤ (m p).length then firstFailure m checks else some (.short name (m p).length n) := by
  unfold firstFailure Check.failure?
  split <;> simp_all

@[simp] theorem firstFailure_demand : firstFailure m (.demand condition failure :: checks) =
    if condition then firstFailure m checks else some failure := by
  cases condition <;> simp [firstFailure, Check.failure?]

theorem passed_holds : firstFailure m (.holds name p n :: checks) = none ↔
    n ≤ (m p).length ∧ firstFailure m checks = none := by
  rw [firstFailure_holds]
  split <;> simp_all

theorem passed_demand : firstFailure m (.demand condition failure :: checks) = none ↔
    condition = true ∧ firstFailure m checks = none := by
  cases condition <;> simp

end FirstFailure

def check (c : Check) : Access Unit := fun m =>
  match c.failure? m with
  | some failure => ⟨.error (.refused failure), m, []⟩
  | none => ⟨.ok (), m, []⟩

def guarded : List Check → Access α → Access α
  | [], x => x
  | c :: cs, x => do
    check c
    guarded cs x

/-! ## Running -/

section Running

variable {x : Access α} {f : α → Access β} {m m' : Operands} {a : α} {stores : List Stored}

theorem bind_ok (h : x m = ⟨.ok a, m', stores⟩) :
    (x >>= f) m = ⟨(f a m').result, (f a m').operands, stores ++ (f a m').stores⟩ := by
  change Access.bind x f m = _
  rw [Access.bind, h]

/-- A step that stores nothing. -/
theorem bind_quiet (h : x m = ⟨.ok a, m', []⟩) : (x >>= f) m = f a m' := bind_ok h

theorem bind_stopped {why : Stop} (h : x m = ⟨.error why, m', stores⟩) :
    (x >>= f) m = ⟨.error why, m', stores⟩ := by
  change Access.bind x f m = _
  rw [Access.bind, h]

theorem guarded_run (checks : List Check) (x : Access α) (m : Operands) :
    guarded checks x m =
      match firstFailure m checks with
      | some failure => ⟨.error (.refused failure), m, []⟩
      | none => x m := by
  induction checks with
  | nil => rfl
  | cons c cs ih =>
    rw [guarded, firstFailure, List.findSome?_cons]
    cases hc : c.failure? m with
    | some failure => exact bind_stopped (by rw [check, hc])
    | none =>
      have hcheck : check c m = ⟨.ok (), m, []⟩ := by rw [check, hc]
      rw [bind_quiet hcheck]
      exact ih

theorem guarded_refused {checks : List Check} {failure : Precondition}
    (h : firstFailure m checks = some failure) (x : Access α) :
    guarded checks x m = ⟨.error (.refused failure), m, []⟩ := by
  rw [guarded_run, h]

theorem guarded_passed {checks : List Check} (h : firstFailure m checks = none) (x : Access α) :
    guarded checks x m = x m := by
  rw [guarded_run, h]

/-- An operation that leaves its slice as it is leaves the operand as it is. -/
theorem within_quiet {p : Operand} {low high : Nat} (hlow : low ≤ high)
    (hhigh : high ≤ (m p).length)
    (h : x (m.put p (((m p).take high).drop low)) =
      ⟨.ok a, m.put p (((m p).take high).drop low), []⟩) :
    within p low high x m = ⟨.ok a, m, []⟩ := by
  rw [within, if_pos ⟨hlow, hhigh⟩, h]
  simp only [Operands.put_self, Operands.put_put, List.map_nil]
  rw [← slice_split (m p) hlow, Operands.put_same]

end Running

end Access

/-! ## What an operation keeps -/

structure Kept (reach : Operand → Nat) (m m' : Operands) : Prop where
  length (p : Operand) : (m' p).length = (m p).length
  past (p : Operand) : (m' p).drop (reach p) = (m p).drop (reach p)

def only (p : Operand) (n : Nat) : Operand → Nat := fun q => if q = p then n else 0

@[simp] theorem only_self (p : Operand) (n : Nat) : only p n p = n := if_pos rfl

theorem only_other {p q : Operand} (h : q ≠ p) (n : Nat) : only p n q = 0 := if_neg h

theorem only_le {reach : Operand → Nat} {p : Operand} {n : Nat} (h : n ≤ reach p) (q : Operand) :
    only p n q ≤ reach q := by
  by_cases hq : q = p
  · rwa [hq, only_self]
  · rw [only_other hq]
    exact Nat.zero_le _

namespace Kept

variable {reach reach' : Operand → Nat} {m m₁ m₂ : Operands} {p : Operand} {n : Nat} {us : Units}

theorem refl : Kept reach m m := ⟨fun _ => rfl, fun _ => rfl⟩

theorem trans (h₁ : Kept reach m m₁) (h₂ : Kept reach m₁ m₂) : Kept reach m m₂ :=
  ⟨fun p => (h₂.length p).trans (h₁.length p), fun p => (h₂.past p).trans (h₁.past p)⟩

theorem mono (h : Kept reach m m₁) (hle : ∀ q, reach q ≤ reach' q) : Kept reach' m m₁ := by
  refine ⟨h.length, fun p => ?_⟩
  have hp := congrArg (List.drop (reach' p - reach p)) (h.past p)
  rwa [List.drop_drop, List.drop_drop, Nat.add_sub_cancel' (hle p)] at hp

/-- A front of an operand replaced by as many limbs. -/
theorem front (hn : n ≤ (m p).length) (hus : us.length = n) :
    Kept (only p n) m (m.put p (us ++ (m p).drop n)) := by
  refine ⟨fun q => ?_, fun q => ?_⟩
  all_goals
    by_cases hq : q = p
    · subst hq
      simp [hus, hn]
    · simp [only_other hq, Operands.put_other _ _ hq]

/-- What is kept of a slice is kept of its operand. -/
theorem within {low high : Nat} (hlow : low ≤ high) (hhigh : high ≤ (m p).length)
    (h : Kept reach (m.put p (((m p).take high).drop low)) m₁)
    (hp : low + reach p ≤ reach' p) (hother : ∀ q, q ≠ p → reach q ≤ reach' q) :
    Kept reach' m (m₁.put p ((m p).take low ++ m₁ p ++ (m p).drop high)) := by
  have hlen := h.length p
  have hslice : Kept (fun q => reach' q - if q = p then low else 0)
      (m.put p (((m p).take high).drop low)) m₁ := h.mono fun q => by
    by_cases hq : q = p
    · subst hq
      simp only [if_true]
      omega
    · simp only [hq, if_false]
      exact hother q hq
  have hsplit := slice_split (m p) hlow
  refine ⟨fun q => ?_, fun q => ?_⟩
  · by_cases hq : q = p
    · subst hq
      rw [Operands.put_self] at hlen
      rw [Operands.put_self, List.length_append, List.length_append, hlen]
      conv_rhs => rw [hsplit]
      simp only [List.length_append]
    · rw [Operands.put_other _ _ hq, h.length, Operands.put_other _ _ hq]
  · have hq' := hslice.past q
    by_cases hq : q = p
    · subst hq
      simp only [if_true, Operands.put_self] at hq' hlen
      rw [Operands.put_self]
      conv_rhs => rw [hsplit]
      simp only [List.drop_append, List.length_append, hlen, List.length_take,
        Nat.min_eq_left (hlow.trans hhigh), hq']
    · simp only [hq, if_false, Operands.put_other _ _ hq, Nat.sub_zero] at hq'
      rw [Operands.put_other _ _ hq, hq']

end Kept

/-! ## Operations that finish -/

def Below (reach : Operand → Nat) (stores : List Stored) : Prop :=
  ∀ e ∈ stores, e.index < reach e.operand

structure Finishes {α : Type} (x : Access α) (m : Operands) (a : α) (m' : Operands)
    (reach : Operand → Nat) : Prop where
  run : ∃ stores, x m = ⟨.ok a, m', stores⟩ ∧ Below reach stores
  kept : Kept reach m m'

namespace Finishes

open Access

variable {α β : Type} {x : Access α} {f : α → Access β} {m m₁ m₂ : Operands} {a : α} {b : β}
  {reach reach' : Operand → Nat}

theorem quiet (h : x m = ⟨.ok a, m, []⟩) : Finishes x m a m reach :=
  ⟨⟨[], h, by simp [Below]⟩, .refl⟩

theorem mono (h : Finishes x m a m₁ reach) (hle : ∀ q, reach q ≤ reach' q) :
    Finishes x m a m₁ reach' := by
  obtain ⟨⟨stores, hx, hb⟩, hk⟩ := h
  exact ⟨⟨stores, hx, fun e he => (hb e he).trans_le (hle _)⟩, hk.mono hle⟩

theorem bind (hx : Finishes x m a m₁ reach) (hf : Finishes (f a) m₁ b m₂ reach) :
    Finishes (x >>= f) m b m₂ reach := by
  obtain ⟨⟨before, hx, hbefore⟩, hxk⟩ := hx
  obtain ⟨⟨after, hf, hafter⟩, hfk⟩ := hf
  refine ⟨⟨before ++ after, by rw [bind_ok hx, hf], fun e he => ?_⟩, hxk.trans hfk⟩
  exact (List.mem_append.mp he).elim (hbefore e) (hafter e)

theorem after (hx : x m = ⟨.ok a, m, []⟩) (hf : Finishes (f a) m b m₂ reach) :
    Finishes (x >>= f) m b m₂ reach := bind (quiet hx) hf

theorem guarded {checks : List Check} (hc : firstFailure m checks = none)
    (hx : Finishes x m a m₁ reach) : Finishes (Access.guarded checks x) m a m₁ reach :=
  ⟨by rw [guarded_passed hc]; exact hx.run, hx.kept⟩

/-- What is stored in a slice is stored as far past its start in the operand. -/
theorem within {p : Operand} {low high : Nat} (hlow : low ≤ high) (hhigh : high ≤ (m p).length)
    (hx : Finishes x (m.put p (((m p).take high).drop low)) a m₁ reach)
    (hp : low + reach p ≤ reach' p) (hother : ∀ q, q ≠ p → reach q ≤ reach' q) :
    Finishes (Access.within p low high x) m a
      (m₁.put p ((m p).take low ++ m₁ p ++ (m p).drop high)) reach' := by
  obtain ⟨⟨stores, hx, hb⟩, hk⟩ := hx
  refine ⟨⟨stores.map (Stored.past p low), ?_, fun e he => ?_⟩,
    hk.within hlow hhigh hp hother⟩
  · rw [Access.within, if_pos ⟨hlow, hhigh⟩, hx]
  · obtain ⟨e, hmem, rfl⟩ := List.mem_map.mp he
    have hlt := hb e hmem
    unfold Stored.past
    split
    · next heq =>
      rw [heq] at hlt
      simp only
      omega
    · next hne => exact hlt.trans_le (hother _ hne)

/-- What an operation makes of the slice past `low`, it makes of the operand past `low`. -/
theorem beyond {p : Operand} {low rest rest' : Units}
    (hx : Finishes x (m.put p rest) a (m.put p rest') reach)
    (hp : low.length + reach p ≤ reach' p) (hother : ∀ q, q ≠ p → reach q ≤ reach' q) :
    Finishes (Access.beyond p low.length x) (m.put p (low ++ rest)) a (m.put p (low ++ rest'))
      reach' := by
  have hbeyond : Access.beyond p low.length x (m.put p (low ++ rest)) =
      Access.within p low.length (low ++ rest).length x (m.put p (low ++ rest)) := by
    rw [Access.beyond, Operands.put_self]
  have hslice : (((m.put p (low ++ rest)) p).take (low ++ rest).length).drop low.length = rest := by
    rw [Operands.put_self, List.take_length, List.drop_left]
  have hhigh : (low ++ rest).length ≤ ((m.put p (low ++ rest)) p).length := by simp
  have h := within (by simp) hhigh (by rwa [hslice, Operands.put_put]) hp hother
  simp only [Operands.put_self, Operands.put_put, List.drop_length, List.append_nil,
    List.take_left] at h
  exact ⟨by rw [hbeyond]; exact h.run, h.kept⟩

end Finishes

end CryptoPrimitives.Units
