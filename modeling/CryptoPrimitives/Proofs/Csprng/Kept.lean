import CryptoPrimitives.Proofs.Csprng.History
import Mathlib.Data.List.Induction

/-!
# What a history lets a cache hold

`Sound` says of a history that each byte it hands out stands at its origin in the current epoch,
and that no origin comes twice. `Kept h r` says of the bytes `r` still to be handed out that each of
them could be handed out next.
-/

set_option autoImplicit false

namespace CryptoPrimitives

namespace History

inductive Sound : History → Prop
  | nil : Sound []
  | quiet {h : History} {e : CsprngEvent} (hs : Sound h) (he : ∀ b o, e ≠ .handed b o) :
      Sound (h ++ [e])
  | handed {h : History} {b : UInt8} {o : Origin} (hs : Sound h) (hd : Delivers h b o)
      (hn : some o ∉ (handouts h).map Prod.snd) : Sound (h ++ [.handed b (some o)])

def Fresh (h : History) (m : Marked) : Prop :=
  ∃ o, m.2 = some o ∧ Delivers h m.1 o ∧ some o ∉ (handouts h).map Prod.snd

structure Kept (h : History) (r : List Marked) : Prop where
  sound : Sound h
  fresh : ∀ m ∈ r, Fresh h m
  distinct : (r.map Prod.snd).Nodup

theorem handouts_quiet {h : History} {e : CsprngEvent} (he : ∀ b o, e ≠ .handed b o) :
    handouts (h ++ [e]) = handouts h := by
  rw [handouts_append]
  cases e with
  | handed b o => exact absurd rfl (he b o)
  | due => exact List.append_nil _
  | required => exact List.append_nil _
  | reseeded => exact List.append_nil _
  | produced bytes => exact List.append_nil _

theorem handouts_handed (h : History) (b : UInt8) (o : Option Origin) :
    handouts (h ++ [.handed b o]) = handouts h ++ [(b, o)] := handouts_append _ _

/-! ## What soundness says of a whole history -/

theorem Sound.delivers {h : History} (hs : Sound h) :
    ∀ (before after : History) (b : UInt8) (o : Option Origin),
      h = before ++ .handed b o :: after → ∃ o', o = some o' ∧ Delivers before b o' := by
  induction hs with
  | nil =>
    intro before after b o heq
    simp at heq
  | quiet hs he ih =>
    intro before after b o heq
    rcases List.eq_nil_or_concat after with rfl | ⟨after, e', rfl⟩
    · obtain ⟨-, hlast⟩ := List.append_inj' heq rfl
      exact absurd (List.singleton_inj.mp hlast) (he b o)
    · rw [List.concat_eq_append, ← List.cons_append, ← List.append_assoc] at heq
      exact ih before after b o (List.append_inj' heq rfl).1
  | handed hs hd hn ih =>
    intro before after b o heq
    rcases List.eq_nil_or_concat after with rfl | ⟨after, e', rfl⟩
    · obtain ⟨rfl, hlast⟩ := List.append_inj' heq rfl
      obtain ⟨rfl, rfl⟩ := CsprngEvent.handed.inj (List.singleton_inj.mp hlast)
      exact ⟨_, rfl, hd⟩
    · rw [List.concat_eq_append, ← List.cons_append, ← List.append_assoc] at heq
      exact ih before after b o (List.append_inj' heq rfl).1

theorem Sound.origins_nodup {h : History} (hs : Sound h) :
    ((handouts h).map Prod.snd).Nodup := by
  induction hs with
  | nil => exact List.nodup_nil
  | quiet hs he ih => rwa [handouts_quiet he]
  | handed hs hd hn ih =>
    rw [handouts_handed, List.map_append]
    apply ih.append (List.nodup_singleton _)
    intro o ho hmem
    cases List.mem_singleton.mp hmem
    exact hn ho

/-- The blocks that were handed out from were produced before. -/
theorem Sound.block_lt {h : History} (hs : Sound h) :
    ∀ o, some o ∈ (handouts h).map Prod.snd → o.block < (blocks h).length := by
  have hgrow : ∀ (h' : History) (e : CsprngEvent),
      (blocks h').length ≤ (blocks (h' ++ [e])).length := by
    intro h' e
    rw [blocks_append, List.length_append]
    omega
  induction hs with
  | nil => simp [handouts]
  | @quiet h e hs he ih =>
    intro o ho
    rw [handouts_quiet he] at ho
    exact Nat.lt_of_lt_of_le (ih o ho) (hgrow h e)
  | @handed h b o' hs hd hn ih =>
    intro o ho
    rw [handouts_handed, List.map_append, List.mem_append] at ho
    apply Nat.lt_of_lt_of_le _ (hgrow h _)
    rcases ho with ho | ho
    · exact ih o ho
    · rw [List.map_singleton, List.mem_singleton] at ho
      cases ho
      exact hd.block_lt

/-! ## What the events do to the bytes kept -/

theorem Fresh.append {h : History} {m : Marked} (hm : Fresh h m) (e : CsprngEvent)
    (he : ∀ b o, e ≠ .handed b o) (hr : e ≠ .reseeded) : Fresh (h ++ [e]) m := by
  obtain ⟨o, ho, hd, hn⟩ := hm
  have hes : reseeds [e] = 0 := List.count_eq_zero.mpr (by simpa using hr.symm)
  exact ⟨o, ho, hd.append [e] hes, by rwa [handouts_quiet he]⟩

theorem kept_nil {h : History} (hs : Sound h) : Kept h [] :=
  ⟨hs, fun _ hm => absurd hm List.not_mem_nil, List.nodup_nil⟩

theorem Kept.event {h : History} {r : List Marked} (hk : Kept h r) (e : CsprngEvent)
    (he : ∀ b o, e ≠ .handed b o) (hr : e ≠ .reseeded) : Kept (h ++ [e]) r :=
  ⟨.quiet hk.sound he, fun m hm => (hk.fresh m hm).append e he hr, hk.distinct⟩

theorem Kept.sublist {h : History} {r r' : List Marked} (hk : Kept h r) (hr : r'.Sublist r) :
    Kept h r' :=
  ⟨hk.sound, fun m hm => hk.fresh m (hr.subset hm), hk.distinct.sublist (hr.map _)⟩

theorem Kept.reseeded {h : History} {r : List Marked} (hk : Kept h r) :
    Kept (h ++ [.reseeded]) [] :=
  kept_nil (.quiet hk.sound (by simp))

/-- A produced block may be handed out before all that was kept. -/
theorem Kept.produced {h : History} {r : List Marked} (hk : Kept h r) (bytes : Bytes) :
    Kept (h ++ [.produced bytes]) (marked (blocks h).length bytes ++ r) := by
  have hquiet : ∀ b o, CsprngEvent.produced bytes ≠ .handed b o := by simp
  have hold := hk.event (.produced bytes) hquiet (by simp)
  refine ⟨hold.sound, ?_, ?_⟩
  · intro m hm
    rcases List.mem_append.mp hm with hm | hm
    · obtain ⟨o, ho, hblock, hd⟩ := marked_delivers h bytes m hm
      refine ⟨o, ho, hd, ?_⟩
      rw [handouts_quiet hquiet]
      intro hused
      have hlt := hk.sound.block_lt o hused
      omega
    · exact hold.fresh m hm
  · rw [List.map_append]
    apply (marked_distinct _ bytes).append hk.distinct
    intro o hnew hold'
    obtain ⟨m, hm, rfl⟩ := List.mem_map.mp hnew
    obtain ⟨m', hm', heq⟩ := List.mem_map.mp hold'
    obtain ⟨o, ho, hblock, -⟩ := marked_delivers h bytes m hm
    obtain ⟨o', ho', hd, -⟩ := hk.fresh m' hm'
    have hoo : o' = o := Option.some.inj (by rw [← ho', heq, ho])
    have hlt := hd.block_lt
    subst hoo
    omega

theorem Kept.handed_one {h : History} {m : Marked} {r : List Marked} (hk : Kept h (m :: r)) :
    Kept (h ++ [.handed m.1 m.2]) r := by
  obtain ⟨o, ho, hd, hn⟩ := hk.fresh m List.mem_cons_self
  have hdist := hk.distinct
  rw [List.map_cons, List.nodup_cons] at hdist
  rw [ho] at hdist ⊢
  refine ⟨.handed hk.sound hd hn, ?_, hdist.2⟩
  intro m' hm'
  obtain ⟨o', ho', hd', hn'⟩ := hk.fresh m' (List.mem_cons_of_mem _ hm')
  refine ⟨o', ho', hd'.append _ (by simp [reseeds]), ?_⟩
  rw [handouts_handed, List.map_append, List.mem_append, List.map_singleton, List.mem_singleton]
  rintro (hused | heq)
  · exact hn' hused
  · apply hdist.1
    cases heq
    rw [← ho']
    exact List.mem_map_of_mem hm'

theorem Kept.handed {out r : List Marked} {h : History} (hk : Kept h (out ++ r)) :
    Kept (h ++ handOut out) r := by
  induction out generalizing h with
  | nil => simpa [handOut] using hk
  | cons m out ih =>
    have hstep := ih (hk.handed_one (r := out ++ r))
    rwa [List.append_assoc] at hstep

/-! ## Reseeds that were asked for -/

/-- When no reseed is pending, one came after every event that asked for it. -/
theorem answered {e : CsprngEvent} {p : Bool} {h : History} (he : e = .due ∨ e = .required)
    (hmem : e ∈ h) (hp : pendingFrom p h = false) :
    ∃ h1 h2, h = h1 ++ .reseeded :: h2 ∧ .reseeded ∉ h2 ∧ .due ∉ h2 ∧ .required ∉ h2 := by
  induction h using List.reverseRecOn with
  | nil => exact absurd hmem List.not_mem_nil
  | append_singleton h last ih =>
    rw [pendingFrom_append] at hp
    have hearlier : (∀ p', pendingFrom p' [last] = p') → last ≠ e → last ≠ .reseeded →
        last ≠ .due → last ≠ .required →
        ∃ h1 h2, h ++ [last] = h1 ++ .reseeded :: h2 ∧ .reseeded ∉ h2 ∧ .due ∉ h2 ∧
          .required ∉ h2 := by
      intro hkeep hne hr hd hq
      rw [hkeep] at hp
      have hmem' : e ∈ h := by simpa [hne.symm] using hmem
      obtain ⟨h1, h2, rfl, hr', hd', hq'⟩ := ih hmem' hp
      exact ⟨h1, h2 ++ [last], by simp, by simp [hr', hr.symm], by simp [hd', hd.symm],
        by simp [hq', hq.symm]⟩
    cases last with
    | due => simp [pendingFrom] at hp
    | required => simp [pendingFrom] at hp
    | reseeded => exact ⟨h, [], rfl, by simp, by simp, by simp⟩
    | produced bytes =>
      apply hearlier (fun _ => rfl) _ (by simp) (by simp) (by simp)
      rcases he with rfl | rfl <;> simp
    | handed b o =>
      apply hearlier (fun _ => rfl) _ (by simp) (by simp) (by simp)
      rcases he with rfl | rfl <;> simp

end History

end CryptoPrimitives
