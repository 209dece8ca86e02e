import CryptoPrimitives.Proofs.BigInt.Capacity

/-!
# The account of an owner's buffers

The ledger is replayed for the buffers of one owner and one length: how many of them are out. A
buffer that goes back has to be out, and wiped. Each operation is accounted for by the numbers that
it is given for good and those that it makes: what it takes besides, it returns.
-/

set_option autoImplicit false

namespace CryptoPrimitives

/-! ## Replaying a ledger -/

namespace Ledger

def counted (owner : Allocator) (n out : Nat) : Entry → Option Nat
  | .taken o length => some (if o = owner ∧ length = n then out + 1 else out)
  | .returned o buffer =>
    if o = owner ∧ buffer.length = n then
      if out = 0 then none else some (out - 1)
    else some out

def outstanding (owner : Allocator) (n out : Nat) (entries : List Entry) : Option Nat :=
  entries.foldlM (counted owner n) out

def Entry.Orderly : Entry → Prop
  | .taken _ length => 0 < length ∧ Allocator.granularity ∣ length
  | .returned _ buffer => ∀ u ∈ buffer, u = 0

structure Settles (owner : Allocator) (n before : Nat) (entries : List Entry) (after : Nat) : Prop
    where
  orderly : ∀ e ∈ entries, e.Orderly
  replay : ∀ others, outstanding owner n (before + others) entries = some (after + others)

variable {owner : Allocator} {n : Nat}

@[simp] theorem outstanding_nil (out : Nat) : outstanding owner n out [] = some out := rfl

theorem outstanding_cons (out : Nat) (e : Entry) (es : List Entry) :
    outstanding owner n out (e :: es) =
      (counted owner n out e).bind fun out => outstanding owner n out es := by
  rw [outstanding, List.foldlM_cons]
  rfl

theorem outstanding_append (out : Nat) (es fs : List Entry) :
    outstanding owner n out (es ++ fs) =
      (outstanding owner n out es).bind fun out => outstanding owner n out fs := by
  rw [outstanding, List.foldlM_append]
  rfl

theorem takenFrom_append (es fs : List Entry) :
    takenFrom owner (es ++ fs) = takenFrom owner es ++ takenFrom owner fs :=
  List.filterMap_append

theorem returnedTo_append (es fs : List Entry) :
    returnedTo owner (es ++ fs) = returnedTo owner es ++ returnedTo owner fs :=
  List.filterMap_append

def takenCount (owner : Allocator) (n : Nat) (entries : List Entry) : Nat :=
  (takenFrom owner entries).count n

def returnedCount (owner : Allocator) (n : Nat) (entries : List Entry) : Nat :=
  ((returnedTo owner entries).map List.length).count n

theorem takenCount_append (es fs : List Entry) :
    takenCount owner n (es ++ fs) = takenCount owner n es + takenCount owner n fs := by
  rw [takenCount, takenFrom_append, List.count_append]
  rfl

theorem returnedCount_append (es fs : List Entry) :
    returnedCount owner n (es ++ fs) = returnedCount owner n es + returnedCount owner n fs := by
  rw [returnedCount, returnedTo_append, List.map_append, List.count_append]
  rfl

theorem counted_count {out after : Nat} {e : Entry} (h : counted owner n out e = some after) :
    out + takenCount owner n [e] = returnedCount owner n [e] + after := by
  cases e with
  | taken o length =>
    cases h
    by_cases ho : o = owner
    · by_cases hn : length = n
      · simp [takenCount, returnedCount, takenFrom, returnedTo, ho, hn]
      · simp [takenCount, returnedCount, takenFrom, returnedTo, ho, hn]
    · simp [takenCount, returnedCount, takenFrom, returnedTo, ho]
  | returned o buffer =>
    by_cases ho : o = owner
    · by_cases hn : buffer.length = n
      · by_cases h0 : out = 0
        · simp [counted, ho, hn, h0] at h
        · simp [counted, ho, hn, h0] at h
          simp [takenCount, returnedCount, takenFrom, returnedTo, ho, hn]
          omega
      · simp [counted, hn] at h
        simp [takenCount, returnedCount, takenFrom, returnedTo, ho, hn, h]
    · simp [counted, ho] at h
      simp [takenCount, returnedCount, takenFrom, returnedTo, ho, h]

/-- What is out is what was taken and not returned. -/
theorem outstanding_count {out after : Nat} {es : List Entry}
    (h : outstanding owner n out es = some after) :
    out + takenCount owner n es = returnedCount owner n es + after := by
  induction es generalizing out with
  | nil =>
    cases h
    exact Nat.add_comm after 0
  | cons e es ih =>
    rw [outstanding_cons] at h
    obtain ⟨middle, he, hes⟩ := Option.bind_eq_some_iff.mp h
    have hone := counted_count he
    have hrest := ih hes
    rw [← List.singleton_append, takenCount_append, returnedCount_append]
    omega

namespace Settles

theorem nil {before after : Nat} (h : before = after) : Settles owner n before [] after :=
  ⟨by simp, fun others => by rw [outstanding_nil, h]⟩

/-- What is out besides what the first entries need is out still for the ones that follow. -/
theorem append {before need left after : Nat} {es fs : List Entry}
    (he : Settles owner n need es left) (hneed : need ≤ before)
    (hf : Settles owner n (before - need + left) fs after) :
    Settles owner n before (es ++ fs) after := by
  refine ⟨fun e h => (List.mem_append.mp h).elim (he.orderly e) (hf.orderly e), fun others => ?_⟩
  have hfirst := he.replay (before - need + others)
  have hsecond := hf.replay others
  rw [outstanding_append, show before + others = need + (before - need + others) by omega, hfirst,
    Option.bind_some, ← hsecond]
  congr 1
  omega

/-- The same entries with more out from the start. -/
theorem within {before need left after : Nat} {es : List Entry} (h : Settles owner n need es left)
    (hneed : need ≤ before) (hafter : before - need + left = after) :
    Settles owner n before es after := by
  rw [← List.append_nil es]
  exact h.append hneed (.nil hafter)

theorem bind {α β : Type} {before need left after : Nat} {x : Booked α} {f : α → Booked β}
    (hx : Settles owner n need x.entries left) (hneed : need ≤ before)
    (hf : Settles owner n (before - need + left) (f x.val).entries after) :
    Settles owner n before (x >>= f).entries after :=
  hx.append hneed hf

end Settles

end Ledger

/-! ## Numbers -/

namespace BigInt

open Allocator (nextCapacity)
open Ledger (Settles)

def held (owner : Allocator) (n : Nat) (x : BigInt) : Nat :=
  if x.alloc = owner ∧ x.capacity = n ∧ 0 < n then 1 else 0

variable {owner : Allocator} {n : Nat}

@[simp] theorem held_empty (owner : Allocator) (n : Nat) (alloc : Allocator) :
    (empty alloc).held owner n = 0 := by
  rw [held, if_neg]
  rintro ⟨-, h, hn⟩
  exact absurd h (Nat.ne_of_lt hn)

@[simp] theorem held_zero : zero.held owner n = 0 := held_empty _ _ _

theorem held_congr {x y : BigInt} (hcap : x.capacity = y.capacity) (halloc : x.alloc = y.alloc) :
    x.held owner n = y.held owner n := by
  rw [held, held, hcap, halloc]

/-- Nothing of one owner is held in a number of another. -/
theorem held_other {x : BigInt} (h : x.alloc ≠ owner) : x.held owner n = 0 :=
  if_neg fun hx => h hx.1

@[simp] theorem held_withSign (x : BigInt) (negative : Bool) :
    (x.withSign negative).held owner n = x.held owner n := rfl

theorem held_wipe (x : BigInt) : x.wipe.held owner n = x.held owner n :=
  held_congr (Units.length_zeros _) rfl

theorem zeros_orderly (alloc : Allocator) (k : Nat) :
    (Ledger.Entry.returned alloc (Units.zeros k)).Orderly :=
  fun _ hu => List.eq_of_mem_replicate hu

theorem release_entries (x : BigInt) : x.release.entries =
    if x.capacity = 0 then [] else [.returned x.alloc (Units.zeros x.capacity)] := by
  unfold release
  by_cases h0 : x.buffer = []
  · rw [if_pos (List.isEmpty_iff.mpr h0), if_pos (by rw [capacity, h0, List.length_nil])]
    rfl
  · have hcap : x.capacity ≠ 0 := fun h => h0 (List.length_eq_zero_iff.mp h)
    rw [if_neg (by simpa using h0), if_neg hcap]
    rfl

/-- The buffer of a number goes back, if it has one. -/
theorem release_settles (x : BigInt) : Settles owner n (x.held owner n) x.release.entries 0 := by
  rw [release_entries]
  by_cases h0 : x.capacity = 0
  · rw [if_pos h0]
    refine .nil (if_neg ?_)
    rintro ⟨-, hcap, hn⟩
    omega
  · rw [if_neg h0]
    refine ⟨fun e he => ?_, fun others => ?_⟩
    · rw [List.mem_singleton.mp he]
      exact zeros_orderly _ _
    · simp only [Ledger.outstanding_cons, Ledger.counted, Units.length_zeros]
      by_cases ho : x.alloc = owner ∧ x.capacity = n
      · have hheld : x.held owner n = 1 := if_pos ⟨ho.1, ho.2, by omega⟩
        simp [ho, hheld, Nat.add_comm 1]
      · have hheld : x.held owner n = 0 := if_neg fun h => ho ⟨h.1, h.2.1⟩
        simp [ho, hheld]

/-- The request for the buffer that a number is moved to. -/
theorem taken_settles {x : BigInt} {length : Nat} (hcap : x.capacity = length) (hpos : 0 < length)
    (hdvd : Allocator.granularity ∣ length) :
    Settles owner n 0 [.taken x.alloc length] (x.held owner n) := by
  refine ⟨fun e he => ?_, fun others => ?_⟩
  · rw [List.mem_singleton.mp he]
    exact ⟨hpos, hdvd⟩
  · simp only [Ledger.outstanding_cons, Ledger.counted]
    by_cases ho : x.alloc = owner ∧ length = n
    · have hheld : x.held owner n = 1 := if_pos ⟨ho.1, hcap.trans ho.2, ho.2 ▸ hpos⟩
      simp [ho, hheld, Nat.add_comm 1]
    · have hheld : x.held owner n = 0 := if_neg fun h => ho ⟨h.1, hcap.symm.trans h.2.1⟩
      simp [ho, hheld]

/-- A larger buffer is taken before the old one goes back. -/
theorem reserve_settles (x : BigInt) (need : Nat) :
    Settles owner n (x.held owner n) (x.reserve need).entries
      ((x.reserve need).val.held owner n) := by
  by_cases h : need ≤ x.capacity
  · rw [reserve_fits h]
    exact .nil rfl
  · have hcap : (x.reserve need).val.capacity = nextCapacity x.capacity need := by
      rw [capacity_reserve, if_neg h]
    have hneed := (Allocator.nextCapacity_ge x.capacity need).1
    have htaken : Settles owner n 0
        [.taken (x.reserve need).val.alloc (nextCapacity x.capacity need)]
        ((x.reserve need).val.held owner n) :=
      taken_settles hcap (by omega) (Allocator.granularity_dvd_nextCapacity _ _)
    rw [reserve_alloc] at htaken
    rw [reserve_entries, if_neg h, moveEntries, ← release_entries]
    exact htaken.append (Nat.zero_le _) (x.release_settles.within (by omega) (by omega))

theorem Grows.settles {need : Nat} {change : BigInt → Booked BigInt} {x : BigInt}
    (h : Grows need change x) :
    Settles owner n (x.held owner n) (change x).entries ((change x).val.held owner n) := by
  have hsame : (change x).val.held owner n = (x.reserve need).val.held owner n :=
    held_congr h.capacity_eq (h.alloc_eq.trans (reserve_alloc x need).symm)
  rw [h.entries_eq, hsame]
  exact reserve_settles x need

/-- What is done afterwards leaves the buffer alone. -/
theorem settles_then {x : Booked BigInt} {before : Nat} {f : BigInt → BigInt}
    (h : Settles owner n before x.entries (x.val.held owner n))
    (hf : ∀ y, (f y).held owner n = y.held owner n) :
    Settles owner n before (do return f (← x) : Booked BigInt).entries
      ((f x.val).held owner n) := by
  rw [hf]
  exact h.bind (Nat.le_refl _) (.nil (by omega))

/-! ## New numbers -/

theorem fresh_settles (alloc : Allocator) (limbs : Units) :
    Settles owner n 0 ((empty alloc).write limbs).entries
      (((empty alloc).write limbs).val.held owner n) := by
  rw [← held_empty owner n alloc]
  exact (write_grows (Nat.zero_le _) limbs).settles

theorem ofLimb_settles (v : Limb) :
    Settles owner n 0 (ofLimb v).entries ((ofLimb v).val.held owner n) :=
  fresh_settles _ _

theorem ofInt64_settles (v : Int64) :
    Settles owner n 0 (ofInt64 v).entries ((ofInt64 v).val.held owner n) :=
  settles_then (fresh_settles _ _) fun _ => rfl

theorem copy_settles (x : BigInt) :
    Settles owner n 0 x.copy.entries (x.copy.val.held owner n) :=
  settles_then (fresh_settles _ _) fun _ => rfl

theorem neg_settles (x : BigInt) : Settles owner n 0 x.neg.entries (x.neg.val.held owner n) :=
  settles_then (copy_settles x) fun _ => rfl

theorem abs_settles (x : BigInt) : Settles owner n 0 x.abs.entries (x.abs.val.held owner n) :=
  settles_then (copy_settles x) fun _ => rfl

theorem select_settles (a b : BigInt) (choice : Bool) :
    Settles owner n 0 (select a b choice).entries ((select a b choice).val.held owner n) :=
  settles_then (fresh_settles _ _) fun _ => rfl

theorem shiftLeft_settles (x : BigInt) (k : Nat) :
    Settles owner n 0 (x.shiftLeft k).entries ((x.shiftLeft k).val.held owner n) := by
  unfold shiftLeft
  split
  · exact .nil (held_empty _ _ _).symm
  · exact settles_then (fresh_settles _ _) fun _ => rfl

theorem shiftRight_settles (x : BigInt) (k : Nat) :
    Settles owner n 0 (x.shiftRight k).entries ((x.shiftRight k).val.held owner n) := by
  unfold shiftRight
  split
  · exact .nil (held_empty _ _ _).symm
  · exact settles_then (fresh_settles _ _) fun _ => rfl

/-! ## Changes in place -/

section Changes

variable [Rendition] {d : BigInt}

theorem writeSignedSum_settles (hd : d.size ≤ d.capacity) (s : BigInt) (sNeg : Bool) (t : BigInt)
    (tNeg : Bool) : Settles owner n (d.held owner n) (d.writeSignedSum s sNeg t tNeg).entries
      ((d.writeSignedSum s sNeg t tNeg).val.held owner n) := by
  unfold writeSignedSum
  split
  · exact settles_then (write_grows hd _).settles fun _ => rfl
  · split
    · exact settles_then (write_grows hd _).settles fun _ => rfl
    · exact settles_then (write_grows hd _).settles fun _ => rfl

theorem RingOp.write_settles (op : RingOp) (hd : d.size ≤ d.capacity) (s t : BigInt) :
    Settles owner n (d.held owner n) (op.write d s t).entries
      ((op.write d s t).val.held owner n) := by
  cases op with
  | sum => exact writeSignedSum_settles hd s _ t _
  | difference => exact writeSignedSum_settles hd s _ t _
  | product =>
    simp only [RingOp.write, writeProduct]
    split
    · exact (clear_grows hd 0).settles
    · exact settles_then (BigInt.write_grows hd _).settles fun _ => rfl

theorem RingOp.fresh_settles (op : RingOp) (s t : BigInt) :
    Settles owner n 0 (op.fresh s t).entries ((op.fresh s t).val.held owner n) := by
  rw [op.fresh_eq, ← held_empty owner n s.alloc]
  exact op.write_settles (Nat.zero_le _) s t

theorem add_settles (s t : BigInt) :
    Settles owner n 0 (s.add t).entries ((s.add t).val.held owner n) :=
  RingOp.sum.fresh_settles s t

theorem sub_settles (s t : BigInt) :
    Settles owner n 0 (s.sub t).entries ((s.sub t).val.held owner n) :=
  RingOp.difference.fresh_settles s t

theorem mul_settles (s t : BigInt) :
    Settles owner n 0 (s.mul t).entries ((s.mul t).val.held owner n) :=
  RingOp.product.fresh_settles s t

/-- The copy that the number is computed from goes back. -/
theorem RingOp.assign_settles (op : RingOp) (hd : d.size ≤ d.capacity) (t : BigInt) :
    Settles owner n (d.held owner n) (op.assign d t).entries
      ((op.assign d t).val.held owner n) := by
  rw [op.assign_stages]
  refine .bind (copy_settles d) (Nat.zero_le _) ?_
  refine .bind (op.write_settles hd d.copy.val t) (by omega) ?_
  exact .bind (release_settles d.copy.val) (by omega) (.nil (by simp))

theorem squareInPlace_settles (hd : d.size ≤ d.capacity) :
    Settles owner n (d.held owner n) d.squareInPlace.entries
      (d.squareInPlace.val.held owner n) := by
  refine .bind (copy_settles d) (Nat.zero_le _) ?_
  refine .bind (RingOp.product.write_settles hd d.copy.val d.copy.val) (by omega) ?_
  refine .bind (release_settles d.copy.val) (by omega) (.nil ?_)
  change _ = (RingOp.product.write d d.copy.val d.copy.val).val.held owner n
  omega

end Changes

end BigInt

/-! ## Attempts -/

namespace Attempt

variable {α β : Type} {owner : Allocator} {n : Nat}

def resultHeld (made : α → Nat) : Except Fault α → Nat
  | .ok r => made r
  | .error _ => 0

def Settles (owner : Allocator) (n before : Nat) (a : Attempt α) (made : α → Nat) : Prop :=
  Ledger.Settles owner n before a.run.entries (resultHeld made a.outcome)

theorem entries_bind_ok {a : Attempt α} {r : α} (f : α → Attempt β) (h : a.outcome = .ok r) :
    (a >>= f).run.entries = a.run.entries ++ (f r).run.entries := by
  have hrun : a.run.val = .ok r := h
  rw [ExceptT.run_bind, Recorded.entries_bind, hrun]

theorem entries_bind_error {a : Attempt α} {e : Fault} (f : α → Attempt β)
    (h : a.outcome = .error e) : (a >>= f).run.entries = a.run.entries := by
  have hrun : a.run.val = .error e := h
  rw [ExceptT.run_bind, Recorded.entries_bind, hrun]
  exact List.append_nil _

namespace Settles

variable {before need left : Nat} {made : α → Nat} {made' : β → Nat}

theorem value {r : α} (h : before = made r) : Settles owner n before (pure r) made :=
  .nil h

theorem fault (h : before = 0) (e : Fault) : Settles owner n before (throw e) made :=
  .nil h

theorem refused (h : before = 0) (e : Fault) (f : α → Attempt β) :
    Settles owner n before (throw e >>= f) made' :=
  .nil h

/-- After a refusal nothing else is out. -/
theorem bind {a : Attempt α} {f : α → Attempt β} (ha : Settles owner n before a made)
    (hf : ∀ r, a.outcome = .ok r → Settles owner n (made r) (f r) made') :
    Settles owner n before (a >>= f) made' := by
  unfold Settles at ha ⊢
  cases h : a.outcome with
  | ok r =>
    rw [h] at ha
    rw [entries_bind_ok f h, outcome_bind_ok f h]
    refine ha.append (Nat.le_refl _) ?_
    rw [Nat.sub_self, resultHeld, Nat.zero_add]
    exact hf r h
  | error e =>
    rw [h] at ha
    rw [entries_bind_error f h, outcome_bind_error f h]
    exact ha

/-- An attempt that succeeds, whatever else is out. -/
theorem bind_ok {a : Attempt α} {f : α → Attempt β} (ha : Settles owner n need a made)
    (hneed : need ≤ before) (hok : ∃ r, a.outcome = .ok r)
    (hf : ∀ r, a.outcome = .ok r → Settles owner n (before - need + made r) (f r) made') :
    Settles owner n before (a >>= f) made' := by
  obtain ⟨r, h⟩ := hok
  unfold Settles at ha ⊢
  rw [h] at ha
  rw [entries_bind_ok f h, outcome_bind_ok f h]
  exact ha.append hneed (hf r h)

theorem whole {a : Attempt α} (ha : Settles owner n need a made) (h : before = need) :
    Settles owner n before a made := h ▸ ha

/-- A step that is never refused. -/
theorem step {x : Booked α} {f : α → Attempt β} (hx : Ledger.Settles owner n need x.entries left)
    (hneed : need ≤ before) (hf : Settles owner n (before - need + left) (f x.val) made') :
    Settles owner n before (liftM x >>= f) made' := by
  unfold Settles at hf ⊢
  have hlift : (liftM x : Attempt α).outcome = .ok x.val := rfl
  rw [entries_bind_ok f hlift, outcome_bind_ok f hlift]
  have hentries : (liftM x : Attempt α).run.entries = x.entries := List.append_nil _
  rw [hentries]
  exact hx.append hneed hf

/-- A step that makes something and is given nothing. -/
theorem makes {x : Booked α} {f : α → Attempt β} (hx : Ledger.Settles owner n 0 x.entries left)
    (hf : Settles owner n (before + left) (f x.val) made') :
    Settles owner n before (liftM x >>= f) made' :=
  step hx (Nat.zero_le before) hf

/-- The end of a number that is not needed any more. -/
theorem release (x : BigInt) {f : Unit → Attempt β} (hneed : x.held owner n ≤ before)
    (hf : Settles owner n (before - x.held owner n) (f ()) made') :
    Settles owner n before (liftM x.release >>= f) made' :=
  step x.release_settles hneed hf

/-- An attempt that succeeds and is given nothing. -/
theorem sure {a : Attempt α} {f : α → Attempt β} (ha : Settles owner n 0 a made)
    (hok : ∃ r, a.outcome = .ok r)
    (hf : ∀ r, a.outcome = .ok r → Settles owner n (before + made r) (f r) made') :
    Settles owner n before (a >>= f) made' :=
  bind_ok ha (Nat.zero_le before) hok hf

end Settles

end Attempt

/-! ## Division and Euclid's algorithm -/

namespace BigInt

variable {owner : Allocator} {n : Nat}

theorem abs_nonzero {x : BigInt} (hx : Canonical x) (h : ¬x.isZero = true) :
    x.abs.val.isZero = false := by
  change (x.copy.val.size == 0) = false
  rw [copy_size hx]
  exact Bool.eq_false_of_not_eq_true h

variable [Rendition]

theorem divMod_settles (s t : BigInt) : Attempt.Settles owner n 0 (s.divMod t)
    fun r => r.1.held owner n + r.2.held owner n := by
  unfold divMod
  by_cases h0 : t.isZero = true
  · rw [if_pos h0]
    exact .refused rfl _ _
  · rw [if_neg h0]
    refine .makes (fresh_settles _ _) ?_
    refine .makes (fresh_settles _ _) (.value ?_)
    simp

theorem divMod_ok (s : BigInt) {t : BigInt} (h : t.isZero = false) :
    ∃ r, (s.divMod t).outcome = .ok r := by
  unfold divMod
  rw [if_neg (by simp [h])]
  exact ⟨_, rfl⟩

theorem emod_settles (s m : BigInt) :
    Attempt.Settles owner n 0 (s.emod m) (·.held owner n) := by
  unfold emod
  refine .bind (divMod_settles s m) fun r _ => ?_
  refine .release r.1 (by omega) ?_
  split
  · refine .makes (abs_settles m) ?_
    refine .makes (add_settles r.2 m.abs.val) ?_
    refine .release m.abs.val (by omega) ?_
    exact .release r.2 (by omega) (.value (by omega))
  · exact .value (by omega)

theorem emod_ok (s : BigInt) {m : BigInt} (h : m.isZero = false) :
    ∃ r, (s.emod m).outcome = .ok r := by
  obtain ⟨r, hr⟩ := divMod_ok s h
  unfold emod
  rw [Attempt.outcome_bind_ok _ hr]
  by_cases hneg : r.2.negative = true
  · simp only [hneg, if_true]
    exact ⟨_, rfl⟩
  · simp only [hneg]
    exact ⟨_, rfl⟩

theorem euclidStep_settles (a : BigInt) {b : BigInt} (h : b.isZero = false) :
    Attempt.Settles owner n (a.held owner n + b.held owner n) (euclidStep a b)
      fun r => r.1.held owner n + r.2.held owner n := by
  unfold euclidStep
  refine .sure (divMod_settles a b) (divMod_ok a h) fun r _ => ?_
  refine .release r.1 (by omega) ?_
  exact .release a (by omega) (.value (by simp only; omega))

theorem euclid_settles (steps : Nat) (a b : BigInt) :
    Attempt.Settles owner n (a.held owner n + b.held owner n) (euclid steps a b)
      (·.held owner n) := by
  induction steps generalizing a b with
  | zero => exact .release b (by omega) (.value (by omega))
  | succ steps ih =>
    unfold euclid
    by_cases h0 : b.isZero = true
    · rw [if_pos h0]
      exact .release b (by omega) (.value (by omega))
    · rw [if_neg h0]
      exact .bind (euclidStep_settles a (by simpa using h0)) fun r _ => ih r.1 r.2

theorem gcd_settles (s t : BigInt) : Attempt.Settles owner n 0 (s.gcd t) (·.held owner n) := by
  unfold gcd
  split
  · exact .fault rfl _
  · refine .makes (abs_settles s) (.makes (abs_settles t) ?_)
    split
    · exact (euclid_settles _ _ _).whole (by omega)
    · exact (euclid_settles _ _ _).whole (by omega)

/-! ## Inverses and numerals -/

def Bezout.held (owner : Allocator) (n : Nat) (e : Bezout) : Nat :=
  e.oldR.held owner n + e.r.held owner n + e.oldS.held owner n + e.s.held owner n

theorem bezoutStep_settles {e : Bezout} (h : e.r.isZero = false) :
    Attempt.Settles owner n (e.held owner n) (bezoutStep e) (Bezout.held owner n) := by
  unfold bezoutStep Bezout.held
  refine .sure (divMod_settles e.oldR e.r) (divMod_ok _ h) fun r _ => ?_
  refine .release e.oldR (by omega) ?_
  refine .makes (mul_settles r.1 e.s) ?_
  refine .makes (sub_settles e.oldS (r.1.mul e.s).val) ?_
  refine .release (r.1.mul e.s).val (by omega) ?_
  refine .release e.oldS (by omega) ?_
  exact .release r.1 (by omega) (.value (by simp only; omega))

theorem bezout_settles (steps : Nat) (e : Bezout) :
    Attempt.Settles owner n (e.held owner n) (bezout steps e) (Bezout.held owner n) := by
  induction steps generalizing e with
  | zero => exact .value rfl
  | succ steps ih =>
    unfold bezout
    by_cases h0 : e.r.isZero = true
    · rw [if_pos h0]
      exact .value rfl
    · rw [if_neg h0]
      exact .bind (bezoutStep_settles (by simpa using h0)) fun e _ => ih e

theorem bezoutStep_ok {e : Bezout} (h : e.r.isZero = false) :
    ∃ e', (bezoutStep e).outcome = .ok e' := by
  obtain ⟨r, hr⟩ := divMod_ok e.oldR h
  unfold bezoutStep
  rw [Attempt.outcome_bind_ok _ hr]
  exact ⟨_, rfl⟩

theorem bezout_ok (steps : Nat) (e : Bezout) : ∃ e', (bezout steps e).outcome = .ok e' := by
  induction steps generalizing e with
  | zero => exact ⟨e, rfl⟩
  | succ steps ih =>
    unfold bezout
    by_cases h0 : e.r.isZero = true
    · rw [if_pos h0]
      exact ⟨e, rfl⟩
    · obtain ⟨e', he'⟩ := bezoutStep_ok (by simpa using h0)
      rw [if_neg h0, Attempt.outcome_bind_ok _ he']
      exact ih e'

theorem modInverse_settles (x : BigInt) {m : BigInt} (hm : Canonical m) :
    Attempt.Settles owner n 0 (x.modInverse m) (·.held owner n) := by
  unfold modInverse
  by_cases h0 : m.isZero = true
  · rw [if_pos h0]
    exact .refused rfl _ _
  · rw [if_neg h0]
    have habs := abs_nonzero hm h0
    refine .makes (abs_settles m) ?_
    generalize m.abs.val = m at habs
    by_cases h1 : m.isOne = true
    · rw [if_pos h1]
      exact .release m (by omega) (.refused (by omega) _ _)
    · rw [if_neg h1]
      refine .sure (emod_settles x m) (emod_ok x habs) fun oldR _ => ?_
      by_cases hr : oldR.isZero = true
      · rw [if_pos hr]
        refine .release oldR (by omega) ?_
        exact .release m (by omega) (.refused (by omega) _ _)
      · rw [if_neg hr]
        refine .makes (copy_settles m) (.makes (ofLimb_settles 1) ?_)
        refine .bind_ok (bezout_settles _ _) ?_ (bezout_ok _ _) fun e _ => ?_
        · simp only [Bezout.held, held_zero]
          omega
        · simp only [Bezout.held, held_zero]
          refine .release e.r (by omega) ?_
          refine .release e.s (by omega) ?_
          split
          · refine .release e.oldR (by omega) ?_
            refine .sure (emod_settles e.oldS m) (emod_ok _ habs) fun inverse _ => ?_
            refine .release e.oldS (by omega) ?_
            exact .release m (by omega) (.value (by omega))
          · refine .release e.oldR (by omega) ?_
            refine .release e.oldS (by omega) ?_
            exact .release m (by omega) (.fault (by omega) _)

theorem parse_settles (text : String) (radix : Nat) (alloc : Allocator) :
    Attempt.Settles owner n 0 (parse text radix alloc) (·.held owner n) := by
  have hread : Attempt.Settles owner n 0
      (ExceptT.mk (pure (Radix.read text.toList radix)) : Attempt (Bool × Units)) fun _ => 0 := by
    refine .nil ?_
    cases h : Radix.read text.toList radix <;> rfl
  unfold parse
  refine .bind hread fun r _ => ?_
  exact .makes (fresh_settles _ _) (.value (by simp))

end BigInt

end CryptoPrimitives
