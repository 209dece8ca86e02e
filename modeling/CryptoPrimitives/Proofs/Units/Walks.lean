import CryptoPrimitives.Proofs.Units.InPlace

/-!
# Walks over a slice

A walk that replaces one limb after the other leaves what a recursion over the lists makes, carries
out what it carries out, and stores nowhere else. It reads its sources as they are: they are other
operands than the one that it writes.
-/

set_option autoImplicit false

namespace CryptoPrimitives.Units

open Access

namespace Access

variable {α β : Type} {m : Operands} {p q : Operand} {i n : Nat}

theorem load_ok {u : Limb} (h : (m p)[i]? = some u) : load p i m = ⟨.ok u, m, []⟩ := by
  simp only [load, h]

theorem fitting_some {a : α} : fitting (some a) m = ⟨.ok a, m, []⟩ := rfl

theorem front_ok (h : n ≤ (m p).length) : front p n m = ⟨.ok (), m, []⟩ := if_pos h

theorem store_at {low high : Units} {u x : Limb} (h : m p = low ++ u :: high) :
    store p low.length x m = ⟨.ok (), m.put p (low ++ x :: high), [⟨p, low.length⟩]⟩ := by
  have hi : low.length < (m p).length := by simp [h]
  have hset : (m p).set low.length x = low ++ x :: high := by simp [h]
  rw [store, if_pos hi, hset]

theorem store_finishes {low high : Units} {u x : Limb} (h : m p = low ++ u :: high) :
    Finishes (store p low.length x) m () (m.put p (low ++ x :: high))
      (only p (low.length + 1)) := by
  have hfront : low ++ x :: high = low ++ [x] ++ (m p).drop (low.length + 1) := by simp [h]
  refine ⟨⟨_, store_at h, by simp [Below, only]⟩, ?_⟩
  rw [hfront]
  exact .front (by simp [h]) (by simp)

end Access

namespace InPlace

variable {α γ : Type} {r : Operand} {m : Operands}

/-! ## What is read -/

def Reads (read : Nat → Access α) (r : Operand) (m : Operands) (start : Nat) (given : List α) :
    Prop :=
  ∀ i a, given[i]? = some a → ∀ us,
    read (start + i) (m.put r us) = ⟨.ok a, m.put r us, []⟩

theorem Reads.tail {read : Nat → Access α} {start : Nat} {a : α} {given : List α}
    (h : Reads read r m start (a :: given)) (us : Units) :
    Reads read r (m.put r us) (start + 1) given := by
  intro i b hb vs
  have hnext := h (i + 1) b (by simpa using hb) vs
  rwa [Operands.put_put, Nat.add_assoc, Nat.add_comm 1 i]

theorem Reads.head {read : Nat → Access α} {start : Nat} {a : α} {given : List α}
    (h : Reads read r m start (a :: given)) : read start m = ⟨.ok a, m, []⟩ := by
  have hfirst := h 0 a rfl (m r)
  rwa [Operands.put_same] at hfirst

theorem held_of_front {us : Units} {n i : Nat} {u : Limb} (h : (us.take n)[i]? = some u) :
    us[i]? = some u := by
  rw [List.getElem?_take] at h
  split at h
  · exact h
  · cases h

theorem load_front {s : Operand} {n i : Nat} {u : Limb} (h : ((m s).take n)[i]? = some u) :
    load s i m = ⟨.ok u, m, []⟩ := load_ok (held_of_front h)

theorem pair_front {s t : Operand} {n i : Nat} {given : Limb × Limb}
    (h : (((m s).take n).zip ((m t).take n))[i]? = some given) :
    pair s t i m = ⟨.ok given, m, []⟩ := by
  obtain ⟨hu, hv⟩ := List.getElem?_zip_eq_some.mp h
  rw [pair, bind_quiet (load_front hu), bind_quiet (load_front hv)]
  rfl

theorem reads_load {s : Operand} (hs : s ≠ r) (n : Nat) :
    Reads (load s) r m 0 ((m s).take n) := by
  intro i u hu us
  rw [← Operands.put_other m us hs] at hu
  rw [Nat.zero_add, load_front hu]

theorem reads_pair {s t : Operand} (hs : s ≠ r) (ht : t ≠ r) (n : Nat) :
    Reads (pair s t) r m 0 (((m s).take n).zip ((m t).take n)) := by
  intro i given hgiven us
  rw [← Operands.put_other m us hs, ← Operands.put_other m us ht] at hgiven
  rw [Nat.zero_add, pair_front hgiven]

theorem reads_nothing (n : Nat) : Reads nothing r m 0 (List.replicate n ()) := fun _ _ _ _ => rfl

/-! ## Replacing -/

def pass (g : Limb → α → γ → Limb × γ) : Units → List α → γ → Units × γ
  | u :: us, a :: as, c =>
    let (x, c) := g u a c
    let (xs, c) := pass g us as c
    (x :: xs, c)
  | _, _, c => ([], c)

theorem replace_run {read : Nat → Access α} {f : Limb → α → γ → Option (Limb × γ)}
    {low high : Units} {u x : Limb} {a : α} {c c' : γ} (hm : m r = low ++ u :: high)
    (hread : read low.length m = ⟨.ok a, m, []⟩) (hf : f u a c = some (x, c')) :
    replace r read f low.length c m =
      ⟨.ok c', m.put r (low ++ x :: high), [⟨r, low.length⟩]⟩ := by
  have hload : load r low.length m = ⟨.ok u, m, []⟩ := load_ok (by simp [hm])
  rw [replace, bind_quiet hload, bind_quiet hread, hf, bind_quiet fitting_some,
    bind_ok (store_at hm)]
  rfl

theorem upward_pass {read : Nat → Access α} {f : Limb → α → γ → Option (Limb × γ)}
    {g : Limb → α → γ → Limb × γ} (hf : ∀ u a c, f u a c = some (g u a c)) (held : Units)
    (given : List α) (low high : Units) (c : γ) (m : Operands) (hm : m r = low ++ held ++ high)
    (hlen : held.length = given.length) (hread : Reads read r m low.length given) :
    upward (replace r read f) held.length low.length c m =
      ⟨.ok (pass g held given c).2, m.put r (low ++ (pass g held given c).1 ++ high),
        (List.range' low.length held.length).map (Stored.mk r)⟩ := by
  induction held generalizing given low c m with
  | nil =>
    rw [List.append_nil] at hm
    simp [upward, pass, ← hm]
    rfl
  | cons u us ih =>
    cases given with
    | nil => simp at hlen
    | cons a as =>
      have hstep := replace_run (f := f) (by simpa using hm) hread.head (hf u a c)
      have hrest := ih as (low ++ [(g u a c).1]) (g u a c).2
        (m.put r (low ++ (g u a c).1 :: (us ++ high))) (by simp) (by simpa using hlen)
        (by simpa using hread.tail _)
      rw [List.length_append, List.length_singleton] at hrest
      rw [List.length_cons, upward, bind_ok hstep, hrest]
      simp [pass, List.range'_succ]

theorem length_pass (g : Limb → α → γ → Limb × γ) (held : Units) (given : List α) (c : γ)
    (h : held.length = given.length) : (pass g held given c).1.length = held.length := by
  induction held generalizing given c with
  | nil => rfl
  | cons u us ih =>
    cases given with
    | nil => simp at h
    | cons a as => simp [pass, ih as _ (by simpa using h)]

/-- The walk over the front of a destination. -/
theorem upward_finishes {read : Nat → Access α} {f : Limb → α → γ → Option (Limb × γ)}
    (g : Limb → α → γ → Limb × γ) (hf : ∀ u a c, f u a c = some (g u a c)) {n : Nat}
    {given : List α} (hn : n ≤ (m r).length) (hgiven : given.length = n)
    (hread : Reads read r m 0 given) (c : γ) :
    Finishes (upward (replace r read f) n 0 c) m (pass g ((m r).take n) given c).2
      (m.put r ((pass g ((m r).take n) given c).1 ++ (m r).drop n)) (only r n) := by
  have hlen : ((m r).take n).length = n := by simp [hn]
  have hsame : ((m r).take n).length = given.length := by rw [hlen, hgiven]
  have hrun := upward_pass hf ((m r).take n) given [] ((m r).drop n) c m (by simp) hsame hread
  rw [hlen] at hrun
  refine ⟨⟨_, hrun, fun e he => ?_⟩, .front hn (by rw [length_pass _ _ _ _ hsame, hlen])⟩
  obtain ⟨i, hi, rfl⟩ := List.mem_map.mp he
  rw [List.mem_range'_1] at hi
  simpa using hi.2

def passDown (g : Limb → α → γ → Limb × γ) : Units → List α → γ → Units × γ
  | u :: us, a :: as, c =>
    let (xs, c) := passDown g us as c
    let (x, c) := g u a c
    (x :: xs, c)
  | _, _, c => ([], c)

/-- The arithmetic may depend on what is carried, as long as it keeps what it depends on. -/
theorem downward_pass {read : Nat → Access α} {f : Limb → α → γ → Option (Limb × γ)}
    {g : Limb → α → γ → Limb × γ} {P : γ → Prop}
    (hf : ∀ u a c, P c → f u a c = some (g u a c) ∧ P (g u a c).2) (held : Units)
    (given : List α) (low high : Units) (c : γ) (m : Operands) (hc : P c)
    (hm : m r = low ++ held ++ high) (hlen : held.length = given.length)
    (hread : Reads read r m low.length given) :
    P (passDown g held given c).2 ∧
      downward (replace r read f) held.length low.length c m =
        ⟨.ok (passDown g held given c).2, m.put r (low ++ (passDown g held given c).1 ++ high),
          ((List.range' low.length held.length).map (Stored.mk r)).reverse⟩ := by
  induction held generalizing given low m with
  | nil =>
    rw [List.append_nil] at hm
    refine ⟨hc, ?_⟩
    simp [downward, passDown, ← hm]
    rfl
  | cons u us ih =>
    cases given with
    | nil => simp at hlen
    | cons a as =>
      have htail : Reads read r m (low ++ [u]).length as := by
        simpa using hread.tail (m r)
      obtain ⟨hP, habove⟩ := ih as (low ++ [u]) m (by simpa using hm) (by simpa using hlen) htail
      obtain ⟨hg, hPg⟩ := hf u a _ hP
      have hjoin : low ++ [u] ++ (passDown g us as c).1 ++ high =
          low ++ u :: ((passDown g us as c).1 ++ high) := by simp
      rw [List.length_append, List.length_singleton, hjoin] at habove
      have hread' := hread 0 a rfl (low ++ u :: ((passDown g us as c).1 ++ high))
      have hstep := replace_run (f := f) (Operands.put_self m r _) hread' hg
      refine ⟨hPg, ?_⟩
      rw [List.length_cons, downward, bind_ok habove, hstep]
      simp [passDown, List.range'_succ]

theorem length_passDown (g : Limb → α → γ → Limb × γ) (held : Units) (given : List α) (c : γ)
    (h : held.length = given.length) : (passDown g held given c).1.length = held.length := by
  induction held generalizing given with
  | nil => rfl
  | cons u us ih =>
    cases given with
    | nil => simp at h
    | cons a as => simp [passDown, ih as (by simpa using h)]

theorem downward_finishes {read : Nat → Access α} {f : Limb → α → γ → Option (Limb × γ)}
    (g : Limb → α → γ → Limb × γ) (P : γ → Prop)
    (hf : ∀ u a c, P c → f u a c = some (g u a c) ∧ P (g u a c).2) {n : Nat} {given : List α}
    (hn : n ≤ (m r).length) (hgiven : given.length = n) (hread : Reads read r m 0 given) {c : γ}
    (hc : P c) :
    Finishes (downward (replace r read f) n 0 c) m (passDown g ((m r).take n) given c).2
      (m.put r ((passDown g ((m r).take n) given c).1 ++ (m r).drop n)) (only r n) := by
  have hlen : ((m r).take n).length = n := by simp [hn]
  have hsame : ((m r).take n).length = given.length := by rw [hlen, hgiven]
  have hrun := (downward_pass hf ((m r).take n) given [] ((m r).drop n) c m hc (by simp) hsame
    hread).2
  rw [hlen] at hrun
  refine ⟨⟨_, hrun, fun e he => ?_⟩, .front hn (by rw [length_passDown _ _ _ _ hsame, hlen])⟩
  obtain ⟨i, hi, rfl⟩ := List.mem_map.mp (List.mem_reverse.mp he)
  rw [List.mem_range'_1] at hi
  simpa using hi.2

/-! ## Exchanging -/

section Exchange

variable {a b : Operand} (choice : Bool)

theorem exchange_run (hab : b ≠ a) {lowa lowb higha highb : Units} {u v : Limb}
    (hma : m a = lowa ++ u :: higha) (hmb : m b = lowb ++ v :: highb)
    (hlow : lowb.length = lowa.length) :
    exchange a b choice lowa.length () m =
      ⟨.ok (), (m.put a (lowa ++ (Limb.swap choice u v).1 :: higha)).put b
        (lowb ++ (Limb.swap choice u v).2 :: highb), [⟨a, lowa.length⟩, ⟨b, lowa.length⟩]⟩ := by
  have hu : load a lowa.length m = ⟨.ok u, m, []⟩ := load_ok (by simp [hma])
  have hv : load b lowa.length m = ⟨.ok v, m, []⟩ := load_ok (by simp [hmb, ← hlow])
  have hsecond := store_at (x := (Limb.swap choice u v).2)
    ((Operands.put_other m (lowa ++ (Limb.swap choice u v).1 :: higha) hab).trans hmb)
  rw [hlow] at hsecond
  rw [exchange, bind_quiet hu, bind_quiet hv, bind_ok (store_at hma), hsecond]
  rfl

theorem upward_exchange (hab : b ≠ a) (us vs lowa lowb higha highb : Units) (m : Operands)
    (hma : m a = lowa ++ us ++ higha) (hmb : m b = lowb ++ vs ++ highb)
    (hlow : lowb.length = lowa.length) (hlen : us.length = vs.length) :
    upward (exchange a b choice) us.length lowa.length () m =
      ⟨.ok (), (m.put a (lowa ++ (List.zipWith (Limb.swap choice) us vs).map Prod.fst ++ higha)).put
          b (lowb ++ (List.zipWith (Limb.swap choice) us vs).map Prod.snd ++ highb),
        (List.range' lowa.length us.length).flatMap fun i => [⟨a, i⟩, ⟨b, i⟩]⟩ := by
  induction us generalizing vs lowa lowb m with
  | nil =>
    cases vs with
    | nil =>
      rw [List.append_nil] at hma hmb
      simp [upward, ← hma, ← hmb]
      rfl
    | cons _ _ => simp at hlen
  | cons u us ih =>
    cases vs with
    | nil => simp at hlen
    | cons v vs =>
      have hu : m a = lowa ++ u :: (us ++ higha) := by simpa using hma
      have hv : m b = lowb ++ v :: (vs ++ highb) := by simpa using hmb
      have hstep := exchange_run choice hab hu hv hlow
      have hrest := ih vs (lowa ++ [(Limb.swap choice u v).1]) (lowb ++ [(Limb.swap choice u v).2])
        ((m.put a (lowa ++ (Limb.swap choice u v).1 :: (us ++ higha))).put b
          (lowb ++ (Limb.swap choice u v).2 :: (vs ++ highb)))
        (by simp [Operands.put_other _ _ hab.symm]) (by simp) (by simp [hlow]) (by simpa using hlen)
      rw [Operands.put_both _ _ _ hab, List.length_append, List.length_singleton] at hrest
      rw [List.length_cons, upward, bind_ok hstep, hrest]
      simp [List.range'_succ]

end Exchange

/-! ## Gathering -/

def gather (f : Nat → α → γ → γ) : Nat → List α → γ → γ
  | i, a :: as, c => gather f (i + 1) as (f i a c)
  | _, [], c => c

theorem upward_gather {read : Nat → Access α} (f : Nat → α → γ → γ) (given : List α)
    (start : Nat) (c : γ)
    (hread : ∀ i a, given[i]? = some a → read (start + i) m = ⟨.ok a, m, []⟩) :
    upward (visit read f) given.length start c m = ⟨.ok (gather f start given c), m, []⟩ := by
  induction given generalizing start c with
  | nil => rfl
  | cons a as ih =>
    have hfirst : read start m = ⟨.ok a, m, []⟩ := hread 0 a rfl
    have hvisit : visit read f start c m = ⟨.ok (f start a c), m, []⟩ := by
      rw [visit, bind_quiet hfirst]
      rfl
    rw [List.length_cons, upward, bind_quiet hvisit, gather]
    apply ih
    intro i b hb
    have hnext := hread (i + 1) b (by simpa using hb)
    rwa [Nat.add_assoc, Nat.add_comm 1 i]

/-- The walk over a front of what is read. -/
theorem gather_run {read : Nat → Access α} (f : Nat → α → γ → γ) (n : Nat) (given : List α)
    (hgiven : given.length = n)
    (hread : ∀ i a, given[i]? = some a → read i m = ⟨.ok a, m, []⟩) (c : γ) :
    upward (visit read f) n 0 c m = ⟨.ok (gather f 0 given c), m, []⟩ := by
  subst hgiven
  refine upward_gather f given 0 c fun i a ha => ?_
  rw [Nat.zero_add, hread i a ha]

end InPlace

end CryptoPrimitives.Units
