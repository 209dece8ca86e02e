import CryptoPrimitives.Csprng.Action

/-!
# Actions that do what others do

`Simulates p y x`: seen through `p`, the action `y` does what `x` does. `Coupled R E y x` says it of
states in a relation, and only until `y` has come to a state in `E`. The rules follow the ways in
which actions are put together.
-/

set_option autoImplicit false

namespace CryptoPrimitives

namespace Action

variable {σ τ α β : Type}

theorem bind_ok {x : Action σ α} {s s' : σ} {a : α} {log : List LogLine}
    (h : x s = ⟨.ok a, s', log⟩) (f : α → Action σ β) :
    (x >>= f) s = ⟨(f a s').result, (f a s').state, log ++ (f a s').log⟩ := by
  change Action.bind x f s = _
  rw [Action.bind, h]

theorem bind_error {x : Action σ α} {s s' : σ} {e : Halt} {log : List LogLine}
    (h : x s = ⟨.error e, s', log⟩) (f : α → Action σ β) :
    (x >>= f) s = ⟨.error e, s', log⟩ := by
  change Action.bind x f s = _
  rw [Action.bind, h]

theorem get_bind (f : σ → Action σ β) (s : σ) : (Action.get >>= f) s = f s s := rfl

theorem modify_bind (f : σ → σ) (k : Unit → Action σ β) (s : σ) :
    (Action.modify f >>= k) s = k () (f s) := rfl

theorem bind_pure (x : Action σ α) : x >>= pure = x := by
  funext s
  rcases h : x s with ⟨_ | a, s', log⟩
  · exact bind_error h _
  · rw [bind_ok h]
    simp [pure]

def Agree (R : σ → τ → Prop) (u : Step σ α) (v : Step τ α) : Prop :=
  u.result = v.result ∧ R u.state v.state ∧ u.log = v.log

/-- From states in `R` the actions agree, unless `y` escapes to `E`, which it never leaves. -/
structure Coupled (R : σ → τ → Prop) (E : σ → Prop) (y : Action σ α) (x : Action τ α) : Prop where
  -- An escaped state has no partner; any state of the other kind lets `coupled_get` make one up.
  stays : ∀ s, τ → E s → E (y s).state
  ends : ∀ s t, R s t → E (y s).state ∨ Agree R (y s) (x t)

section

variable {R : σ → τ → Prop} {E : σ → Prop}

theorem coupled_pure (a : α) : Coupled R E (pure a) (pure a) :=
  ⟨fun _ _ hE => hE, fun _ _ hR => .inr ⟨rfl, hR, rfl⟩⟩

theorem coupled_note (level : LogLevel) (text : String) :
    Coupled R E (Action.note level text) (Action.note level text) :=
  ⟨fun _ _ hE => hE, fun _ _ hR => .inr ⟨rfl, hR, rfl⟩⟩

theorem coupled_halt (h : Halt) : Coupled R E (Action.halt h : Action σ α) (Action.halt h) :=
  ⟨fun _ _ hE => hE, fun _ _ hR => .inr ⟨rfl, hR, rfl⟩⟩

theorem coupled_modify {f : σ → σ} {f' : τ → τ} (hE : ∀ s, E s → E (f s))
    (hR : ∀ s t, R s t → R (f s) (f' t)) : Coupled R E (Action.modify f) (Action.modify f') :=
  ⟨fun s _ => hE s, fun s t h => .inr ⟨rfl, hR s t h, rfl⟩⟩

theorem coupled_query {f : σ → α × σ} {f' : τ → α × τ} (hE : ∀ s, E s → E (f s).2)
    (hR : ∀ s t, R s t → (f s).1 = (f' t).1 ∧ R (f s).2 (f' t).2) :
    Coupled R E (Action.query f) (Action.query f') :=
  ⟨fun s _ => hE s, fun s t h => .inr ⟨congrArg Except.ok (hR s t h).1, (hR s t h).2, rfl⟩⟩

theorem Coupled.bind {y : Action σ α} {x : Action τ α} {k : α → Action σ β} {f : α → Action τ β}
    (hx : Coupled R E y x) (hf : ∀ a, Coupled R E (k a) (f a)) :
    Coupled R E (y >>= k) (x >>= f) where
  stays := by
    intro s t hE
    have hafter := hx.stays s t hE
    rcases hy : y s with ⟨h | a, s', log⟩
    · rw [hy] at hafter
      rw [bind_error hy]
      exact hafter
    · rw [hy] at hafter
      rw [bind_ok hy]
      exact (hf a).stays s' t hafter
  ends := by
    intro s t hR
    have hafter := hx.ends s t hR
    rcases hy : y s with ⟨r, s1, log⟩
    rcases hx' : x t with ⟨r', t1, log'⟩
    rw [hy, hx'] at hafter
    rcases hafter with hE | ⟨hr, hR1, hl⟩
    · left
      cases r with
      | error h =>
        rw [bind_error hy]
        exact hE
      | ok a =>
        rw [bind_ok hy]
        exact (hf a).stays s1 t hE
    · simp only at hr hl
      subst hr hl
      cases r with
      | error h =>
        rw [bind_error hy, bind_error hx']
        exact .inr ⟨rfl, hR1, rfl⟩
      | ok a =>
        rw [bind_ok hy, bind_ok hx']
        exact ((hf a).ends s1 t1 hR1).imp id fun ⟨hr, hR2, hl⟩ =>
          ⟨hr, hR2, congrArg (log ++ ·) hl⟩

/-- What is done next may depend on what the states share. -/
theorem coupled_get {S : σ → τ → Prop} {k : σ → Action σ β} {f : τ → Action τ β}
    (hsome : ∀ s, τ → ∃ t, S s t) (hshared : ∀ s t, R s t → S s t)
    (hf : ∀ s t, S s t → Coupled R E (k s) (f t)) :
    Coupled R E (Action.get >>= k) (Action.get >>= f) where
  stays := by
    intro s t hE
    obtain ⟨t', hS⟩ := hsome s t
    exact (hf s t' hS).stays s t hE
  ends := by
    intro s t hR
    exact ((hf s t (hshared s t hR)).ends s t hR).imp id fun ⟨hr, hR', hl⟩ =>
      ⟨hr, hR', congrArg ([] ++ ·) hl⟩

end

def Simulates (p : σ → τ) (y : Action σ α) (x : Action τ α) : Prop :=
  ∀ s, (y s).result = (x (p s)).result ∧ p (y s).state = (x (p s)).state ∧
    (y s).log = (x (p s)).log

variable {p : σ → τ}

/-- With a function for the relation, and no escape. -/
theorem simulates_iff {y : Action σ α} {x : Action τ α} :
    Simulates p y x ↔ Coupled (fun s t => p s = t) (fun _ => False) y x := by
  constructor
  · refine fun h => ⟨fun _ _ => id, ?_⟩
    rintro s t rfl
    exact .inr (h s)
  · exact fun h s => (h.ends s (p s) rfl).resolve_left id

theorem Simulates.run {y : Action σ α} {x : Action τ α} (h : Simulates p y x) {s s' : σ}
    {result : Except Halt α} {log : List LogLine} (hy : y s = ⟨result, s', log⟩) :
    x (p s) = ⟨result, p s', log⟩ := by
  obtain ⟨hr, hs, hl⟩ := h s
  rw [hy] at hr hs hl
  rcases hx : x (p s) with ⟨result', s'', log'⟩
  rw [hx] at hr hs hl
  simp only at hr hs hl
  rw [hr, hs, hl]

theorem simulates_pure (a : α) : Simulates p (pure a) (pure a) := fun _ => ⟨rfl, rfl, rfl⟩

theorem Simulates.bind {y : Action σ α} {x : Action τ α} {k : α → Action σ β}
    {f : α → Action τ β} (hx : Simulates p y x) (hf : ∀ a, Simulates p (k a) (f a)) :
    Simulates p (y >>= k) (x >>= f) :=
  simulates_iff.mpr ((simulates_iff.mp hx).bind fun a => simulates_iff.mp (hf a))

/-- What comes after may keep a record. -/
theorem Simulates.after {y : Action σ α} {x : Action τ α} {k : α → Action σ α}
    (hx : Simulates p y x) (hk : ∀ a, Simulates p (k a) (pure a)) : Simulates p (y >>= k) x := by
  rw [← bind_pure x]
  exact hx.bind hk

end Action

end CryptoPrimitives
