import CryptoPrimitives.Proofs.Csprng.Coupling
import CryptoPrimitives.Proofs.Csprng.InOrder

/-!
# Requests that take one pass

A pass whose reseed is not due asks the policy and serves. If the cache holds the bytes, they are
drained from it. If it is used up and has room for them, a cache's worth of bytes is made of which
they are the first, whether the cache is filled with it or passed by, and in the end the cache is as
if it had been filled.
-/

set_option autoImplicit false

namespace CryptoPrimitives

namespace Csprng

open CryptoPrimitives.Action

variable {δ ε π : Type}

def available (g : Csprng δ ε π) : Nat := g.cache.length - g.cursor

def drained (n : Nat) (g : Csprng δ ε π) : Csprng δ ε π :=
  { g with
    cache := g.cache.take g.cursor ++ Bytes.zeros n ++ (g.cache.drop g.cursor).drop n
    cursor := g.cursor + n }

theorem drain_run (n : Nat) (g : Csprng δ ε π) :
    drain n g = ⟨.ok ((g.cache.drop g.cursor).take n), drained n g, []⟩ := rfl

section

variable {g : Csprng δ ε π} {n m : Nat}

theorem drained_split (hg : g.cursor ≤ g.cache.length) :
    (drained n g).cache.take (g.cursor + n) = g.cache.take g.cursor ++ Bytes.zeros n ∧
      (drained n g).cache.drop (g.cursor + n) = (g.cache.drop g.cursor).drop n := by
  have hlength : (g.cache.take g.cursor ++ Bytes.zeros n).length = g.cursor + n := by
    rw [List.length_append, List.length_take_of_le hg, Bytes.length_zeros]
  exact ⟨List.take_left' hlength, List.drop_left' hlength⟩

theorem drained_zero : drained 0 g = g := by
  have hcache : g.cache.take g.cursor ++ Bytes.zeros 0 ++ (g.cache.drop g.cursor).drop 0 =
      g.cache := by
    rw [show Bytes.zeros 0 = [] from rfl, List.append_nil, List.drop_zero, List.take_append_drop]
  exact congrArg (fun cache => { g with cache }) hcache

theorem drained_drained (hg : g.cursor ≤ g.cache.length) :
    drained m (drained n g) = drained (n + m) g := by
  obtain ⟨htake, hdrop⟩ := drained_split (n := n) hg
  have hcache : (drained m (drained n g)).cache = (drained (n + m) g).cache := by
    change (drained n g).cache.take (g.cursor + n) ++ Bytes.zeros m ++
      ((drained n g).cache.drop (g.cursor + n)).drop m = _
    rw [htake, hdrop, List.drop_drop, List.append_assoc (g.cache.take g.cursor), Bytes.zeros,
      Bytes.zeros, List.replicate_append_replicate]
    rfl
  exact congrArg₂ (fun cache cursor => { g with cache, cursor }) hcache (Nat.add_assoc _ _ _)

end

def unruled (g : Csprng δ ε π) : Csprng δ ε Unit := { g with policy := () }

structure Spent (n : Nat) (g g' : Csprng δ ε π) : Prop where
  phase : g'.phase = g.phase
  bounded : g'.cursor ≤ g'.cache.length
  available : g'.available = g.available - n
  held : g'.cache.drop g'.cursor = (g.cache.drop g.cursor).drop n

theorem spent {g g' : Csprng δ ε π} {n : Nat} (hg : g.cursor ≤ g.cache.length)
    (h : unruled g' = drained n (unruled g)) : Spent n g g' := by
  have hphase : g'.phase = g.phase := (congrArg Csprng.phase h :)
  have hcache : g'.cache = (drained n g).cache := (congrArg Csprng.cache h :)
  have hcursor : g'.cursor = g.cursor + n := (congrArg Csprng.cursor h :)
  obtain ⟨htake, hdrop⟩ := drained_split (n := n) hg
  rw [← hcache, ← hcursor] at htake hdrop
  have hhanded := congrArg List.length htake
  have hleft := congrArg List.length hdrop
  rw [List.length_append, List.length_take, List.length_take, Bytes.length_zeros] at hhanded
  rw [List.length_drop, List.length_drop, List.length_drop] at hleft
  exact ⟨hphase, by omega, hleft, hdrop⟩

/-! ## Draws without a cache -/

def bare (g : Csprng δ ε π) : Csprng δ ε π := { g with cache := [], cursor := 0 }

def filled (bytes : Bytes) (g : Csprng δ ε π) : Csprng δ ε π :=
  { g with cache := bytes, cursor := 0 }

theorem drained_filled {bytes : Bytes} {n : Nat} (h : bytes.length = n) (g : Csprng δ ε π) :
    drained n (filled bytes g) = { g with cache := Bytes.zeros n, cursor := n } := by
  have hcache : (filled bytes g).cache.take 0 ++ Bytes.zeros n ++ bytes.drop n = Bytes.zeros n := by
    rw [List.take_zero, List.nil_append, List.drop_of_length_le (Nat.le_of_eq h), List.append_nil]
  exact congrArg₂ (fun cache cursor => { g with cache, cursor }) hcache (Nat.zero_add n)

section

variable [Drbg δ] [EntropySource ε] [Policy π]

/-- No part of a manager looks into the cache. -/
theorem refresh_bare : Simulates bare (refresh (δ := δ) (ε := ε) (π := π)) refresh := by
  have hfatal : ∀ e, Simulates bare (fatal e : Act δ ε π Unit) (fatal e) := fun _ _ =>
    ⟨rfl, rfl, rfl⟩
  refine Simulates.bind (fun _ => ⟨rfl, rfl, rfl⟩) fun seed => ?_
  cases seed with
  | error e => exact hfatal e
  | ok seed =>
    refine Simulates.bind (fun _ => ⟨rfl, rfl, rfl⟩) fun answer => ?_
    cases answer with
    | error e => exact hfatal e
    | ok u => exact fun _ => ⟨rfl, rfl, rfl⟩

theorem draw_bare (length : Nat) :
    Simulates bare (draw (δ := δ) (ε := ε) (π := π) length) (draw length) := by
  have hfatal : ∀ e, Simulates bare (fatal e : Act δ ε π Bytes) (fatal e) := fun _ _ =>
    ⟨rfl, rfl, rfl⟩
  have hcall : Simulates bare (callDrbg length : Act δ ε π _) (callDrbg length) := fun _ =>
    ⟨rfl, rfl, rfl⟩
  refine hcall.bind fun answer => ?_
  rcases answer with e | bytes
  · cases e with
    | drbgReseedRequired =>
      refine Simulates.bind (fun _ => ⟨rfl, rfl, rfl⟩) fun _ => refresh_bare.bind fun _ => ?_
      refine hcall.bind fun again => ?_
      cases again with
      | error e => exact hfatal e
      | ok bytes => exact simulates_pure bytes
    | _ => exact hfatal _
  · exact simulates_pure bytes

/-! ## One pass -/

def polled (g : Csprng δ ε π) : Csprng δ ε π := { g with policy := (Policy.due g.policy).2 }

variable {g : Csprng δ ε π} {wanted : Nat}

theorem pass_polled (hphase : g.phase = .seeded) (hdue : (Policy.due g.policy).1 = false)
    (wanted : Nat) : pass wanted g = serve wanted g.polled := by
  have henter : enter g = ⟨.ok (), g, []⟩ := by
    rw [enter_run, hphase, if_neg (by decide)]
  have hask : askPolicy g = ⟨.ok (Policy.due g.policy).1, g.polled, []⟩ := rfl
  have hrenew : refreshIfDue g = ⟨.ok (), g.polled, []⟩ := by
    unfold refreshIfDue
    rw [get_bind, hphase, if_neg (by decide), bind_ok hask, hdue]
    rfl
  unfold pass
  rw [bind_ok henter, bind_ok hrenew]
  rfl

/-- A request that its first pass serves in full is that pass. -/
theorem generate_pass (hwanted : wanted ≠ 0)
    (hwhole : ∀ bytes, (pass wanted g).result = .ok bytes → bytes.length = wanted) :
    generate wanted g = pass wanted g := by
  obtain ⟨rounds, rfl⟩ := Nat.exists_eq_succ_of_ne_zero hwanted
  have hnone : ∀ g : Csprng δ ε π, passes rounds 0 g = ⟨.ok [], g, []⟩ := by
    intro g
    cases rounds <;> rfl
  rw [generate, passes_succ hwanted]
  rcases hrun : pass (rounds + 1) g with ⟨halt | bytes, g', log⟩
  · exact bind_error hrun _
  · rw [hrun] at hwhole
    rw [bind_ok hrun, hwhole bytes rfl, Nat.sub_self, bind_ok (hnone g')]
    simp [pure]

inductive Furnished (wanted : Nat) : Step (Csprng δ ε π) Bytes → Step (Csprng δ ε π) Bytes → Prop
  | served {bytes handed : Bytes} {g g' : Csprng δ ε π} {log log' : List LogLine}
      (hbytes : handed = bytes.take wanted)
      (hstate : unruled g' = drained wanted (filled bytes (unruled g))) :
      Furnished wanted ⟨.ok bytes, g, log⟩ ⟨.ok handed, g', log'⟩
  | halted {halt : Halt} {g g' : Csprng δ ε π} {log log' : List LogLine} (hstate : bare g' = g) :
      Furnished wanted ⟨.error halt, g, log⟩ ⟨.error halt, g', log'⟩

theorem refill_furnished (wanted : Nat) (g : Csprng δ ε π) :
    Furnished wanted (draw g.cache.length (bare g)) ((do refill; drain wanted) g) := by
  rcases hrun : draw g.cache.length { g with cache := [] } with ⟨halt | bytes, g', log⟩
  · have hbare : draw g.cache.length (bare g) = ⟨.error halt, bare g', log⟩ :=
      (draw_bare g.cache.length).run (s := { g with cache := [] }) hrun
    have hrefill : refill g = ⟨.error halt, g', log⟩ := by
      unfold refill
      rw [get_bind, modify_bind, bind_error hrun]
    rw [hbare, bind_error hrefill]
    exact .halted rfl
  · have hbare : draw g.cache.length (bare g) = ⟨.ok bytes, bare g', log⟩ :=
      (draw_bare g.cache.length).run (s := { g with cache := [] }) hrun
    obtain ⟨log', hrefill⟩ : ∃ log', refill g = ⟨.ok (), filled bytes g', log'⟩ := by
      unfold refill
      rw [get_bind, modify_bind, bind_ok hrun]
      exact ⟨_, rfl⟩
    rw [hbare, bind_ok hrefill]
    exact .served rfl rfl

section

variable {size limit : Nat} {J : δ → Prop}

omit [Drbg δ] [EntropySource ε] [Policy π] in
theorem InOrder.used (hg : InOrder size g) (hspent : g.available = 0) :
    g.cache = Bytes.zeros g.cache.length ∧ g.cursor = g.cache.length := by
  have hwiped := hg.wiped
  have hcursor : g.cursor = g.cache.length := by
    have hbounded := hg.bounded
    unfold available at hspent
    omega
  rw [hcursor, List.take_length] at hwiped
  exact ⟨hwiped, hcursor⟩

theorem stream_furnished (hJ : Drbg.Upheld limit J) (hg : Live size limit J g)
    (hsize : size ≤ limit) (hspent : g.available = 0) (hone : 1 ≤ g.cache.length) :
    Furnished g.cache.length (draw g.cache.length (bare g)) (draw g.cache.length g) := by
  have hsized := hg.order.sized
  have hdrawing := drawing g.cache.length g
  rcases hrun : draw g.cache.length g with ⟨halt | bytes, g', log⟩
  · rw [(draw_bare g.cache.length).run hrun]
    exact .halted rfl
  rw [hrun] at hdrawing
  obtain ⟨-, -, htidied, hlength⟩ :=
    hdrawing.works hJ hg.works hg.order.seeded hone (by omega)
  obtain ⟨hwiped, hcursor⟩ := hg.order.used hspent
  have hcache : g'.cache = Bytes.zeros g.cache.length ∧ g'.cursor = g.cache.length := by
    rcases htidied with ⟨hcache, hkept⟩ | hused
    · exact ⟨hcache.trans hwiped, hkept.trans hcursor⟩
    · exact hused
  rw [(draw_bare g.cache.length).run hrun]
  refine .served (List.take_of_length_le (Nat.le_of_eq hlength)).symm ?_
  rw [drained_filled hlength, ← hcache.1, ← hcache.2]
  rfl

/-- It makes no difference whether the cache is filled or passed by. -/
theorem serve_furnished (hJ : Drbg.Upheld limit J) (hg : Live size limit J g)
    (hsize : size ≤ limit) (hspent : g.available = 0) (hone : 1 ≤ wanted)
    (hfit : wanted ≤ g.cache.length) :
    Furnished wanted (draw g.cache.length (bare g)) (serve wanted g) := by
  have hsized := hg.order.sized
  have hlimited := hg.works.limited
  unfold available at hspent
  unfold serve
  rw [get_bind, if_neg (by omega)]
  split
  · exact refill_furnished wanted g
  · obtain rfl : wanted = g.cache.length := by omega
    rw [Nat.min_eq_left (by omega)]
    exact stream_furnished hJ hg hsize hspent hone

end

end

end Csprng

end CryptoPrimitives
