import CryptoPrimitives.Proofs.Units.Passes
import CryptoPrimitives.Proofs.Units.Rows
import CryptoPrimitives.Proofs.Units.Shift

/-!
# Operations in place that are not refused

An operation whose checks pass runs to its end, whatever it calls and wherever it reads and stores,
and leaves its destination as the recursions over the limbs have it.
-/

set_option autoImplicit false

namespace CryptoPrimitives.Units.InPlace

open Access

variable {n : Nat} {r s t : Operand} {m : Operands}

/-! ## Families -/

section Families

variable {γ : Type} {f : Limb → Limb → γ → Option (Limb × γ)} {g : Limb → Limb → γ → Limb × γ}

theorem along_finishes (name : String) (hf : ∀ held u c, f held u c = some (g held u c))
    (hsr : s ≠ r) (hr : n ≤ (m r).length) (hs : n ≤ (m s).length) (c : γ) :
    Finishes (along n r name s f c) m (pass g ((m r).take n) ((m s).take n) c).2
      (m.put r ((pass g ((m r).take n) ((m s).take n) c).1 ++ (m r).drop n)) (only r n) := by
  have hwalk := upward_finishes g hf hr (by simp [hs]) (reads_load hsr n) c
  exact .guarded (by simp [hr, hs]) (.after (front_ok hr) (.after (front_ok hs) hwalk))

theorem across_finishes (hf : ∀ u v c, f u v c = some (g u v c)) (hsr : s ≠ r) (htr : t ≠ r)
    (hr : n ≤ (m r).length) (hs : n ≤ (m s).length) (ht : n ≤ (m t).length) (c : γ) :
    Finishes (across n r s t f c) m (pass g ((m s).take n) ((m t).take n) c).2
      (m.put r ((pass g ((m s).take n) ((m t).take n) c).1 ++ (m r).drop n)) (only r n) := by
  have hwalk := upward_finishes (fun _ given => g given.1 given.2) (fun _ given => hf _ _) hr
    (by simp [hs, ht]) (reads_pair hsr htr n) c
  rw [pass_pair g _ _ _ _ (by simp [hr, hs, ht])] at hwalk
  exact .guarded (by simp [hr, hs, ht])
    (.after (front_ok hr) (.after (front_ok hs) (.after (front_ok ht) hwalk)))

theorem measure_run (f : Nat → Limb → γ → γ) (hs : n ≤ (m s).length) (c : γ) :
    measure n s f c m = ⟨.ok (gather f 0 ((m s).take n) c), m, []⟩ := by
  have hwalk := gather_run f n ((m s).take n) (by simp [hs]) (fun _ _ => load_front) c
  rw [measure, guarded_passed (by simp [hs]), bind_quiet (front_ok hs), hwalk]

end Families

/-! ## Moves -/

theorem set_finishes (hsr : s ≠ r) (hr : n ≤ (m r).length) (hs : n ≤ (m s).length) :
    Finishes (set n r s) m () (m.put r ((m s).take n ++ (m r).drop n)) (only r n) := by
  have hwalk := along_finishes "s" (g := fun _ u _ => (u, ())) (fun _ _ _ => rfl) hsr hr hs ()
  rwa [pass_set _ _ (by simp [hr, hs])] at hwalk

theorem zero_finishes (hr : n ≤ (m r).length) :
    Finishes (zero n r) m () (m.put r (zeros n ++ (m r).drop n)) (only r n) := by
  have hwalk := upward_finishes (fun _ _ _ => (0, ())) (fun _ _ _ => rfl) hr (by simp)
    (reads_nothing n) ()
  rw [pass_zero _ _ (by simp [hr]), List.length_replicate] at hwalk
  exact .guarded (by simp [hr]) (.after (front_ok hr) hwalk)

theorem assignIf_finishes (hsr : s ≠ r) (hr : n ≤ (m r).length) (hs : n ≤ (m s).length)
    (choice : Bool) :
    Finishes (assignIf n r s choice) m ()
      (m.put r (Units.assignIf choice ((m r).take n) ((m s).take n) ++ (m r).drop n))
      (only r n) := by
  have hwalk := along_finishes "s" (g := fun held u _ => (Limb.choose choice held u, ()))
    (fun _ _ _ => rfl) hsr hr hs ()
  rwa [pass_assignIf] at hwalk

/-- The slice past the limbs that are set holds the others, so clearing it is not refused. -/
theorem setWithin_finishes {ns : Nat} (hsr : s ≠ r) (hn : ns ≤ n) (hr : n ≤ (m r).length)
    (hs : ns ≤ (m s).length) :
    Finishes (setWithin n r ns s) m ()
      (m.put r ((m s).take ns ++ zeros (n - ns) ++ (m r).drop n)) (only r n) := by
  have hns : ((m s).take ns).length = ns := by simp [hs]
  have hle : ns ≤ only r n r := by rwa [only_self]
  have hset := (set_finishes hsr (hn.trans hr) hs).mono (only_le hle)
  have hzero := zero_finishes (n := n - ns) (r := r) (m := m.put r ((m r).drop ns))
    (by simpa using Nat.sub_le_sub_right hr ns)
  rw [Operands.put_self, Operands.put_put, List.drop_drop, Nat.add_sub_cancel' hn] at hzero
  have hrest : Finishes (beyond r ((m s).take ns).length (zero (n - ns) r))
      (m.put r ((m s).take ns ++ (m r).drop ns)) () _ (only r n) :=
    .beyond hzero (by rw [only_self, only_self]; omega)
      (fun q hq => by rw [only_other hq, only_other hq])
  rw [hns, ← List.append_assoc] at hrest
  exact .guarded (by simp [hr, hn]) (hset.bind hrest)

theorem swapIf_finishes {a b : Operand} {reach : Operand → Nat} (hab : b ≠ a)
    (ha : n ≤ (m a).length) (hb : n ≤ (m b).length) (choice : Bool) (hra : n ≤ reach a)
    (hrb : n ≤ reach b) :
    let pairs := List.zipWith (Limb.swap choice) ((m a).take n) ((m b).take n)
    Finishes (swapIf n a b choice) m ()
      ((m.put a (pairs.map Prod.fst ++ (m a).drop n)).put b
        (pairs.map Prod.snd ++ (m b).drop n)) reach := by
  intro pairs
  have hpairs : pairs.length = n := by simp [pairs, ha, hb]
  have hla : ((m a).take n).length = n := by simp [ha]
  have hlb : ((m b).take n).length = n := by simp [hb]
  have hrun := upward_exchange choice hab ((m a).take n) ((m b).take n) [] []
    ((m a).drop n) ((m b).drop n) m (by simp) (by simp) rfl (by rw [hla, hlb])
  rw [hla] at hrun
  refine .guarded (by simp [ha, hb]) (.after (front_ok ha) (.after (front_ok hb) ?_))
  refine ⟨⟨_, hrun, fun e he => ?_⟩, ?_⟩
  · obtain ⟨i, hi, he⟩ := List.mem_flatMap.mp he
    have hlt := List.mem_range'_1.mp hi
    simp only [List.mem_cons, List.not_mem_nil, or_false] at he
    rcases he with rfl | rfl
    · exact (by simpa using hlt.2 : i < n).trans_le hra
    · exact (by simpa using hlt.2 : i < n).trans_le hrb
  · have hfirst : Kept reach m (m.put a (pairs.map Prod.fst ++ (m a).drop n)) :=
      (Kept.front ha (by simpa)).mono (only_le hra)
    have hother := Operands.put_other m (pairs.map Prod.fst ++ (m a).drop n) hab
    refine hfirst.trans ((Kept.mono ?_ (only_le hrb)))
    rw [← hother]
    exact .front (by rwa [hother]) (by simpa)

/-! ## Shifts -/

theorem complement_amount {k : Nat} (h0 : k ≠ 0) (hk : k < 64) :
    (64 - k).toUInt64 = 64 - k.toUInt64 := by
  rw [← UInt64.toNat_inj, shift_amount _ (by omega), shift_complement k (by omega) hk]

/-- Neither a shift by less than a limb nor its complement leaves one. -/
theorem shiftLeft_step {k : Nat} (h0 : k ≠ 0) (hk : k < 64) (u carry : Limb) :
    (do let moved ← Limb.shiftLeftWithin u k
        let out ← Limb.shiftRightWithin u (64 - k)
        return (moved ||| carry, out)) =
      some ((u <<< k.toUInt64) ||| carry, u >>> (64 - k.toUInt64)) := by
  have hrest : 64 - k < 64 := by omega
  rw [Limb.shiftLeftWithin, if_pos hk, Limb.shiftRightWithin, if_pos hrest,
    complement_amount h0 hk]
  rfl

theorem shiftRight_step {k : Nat} (h0 : k ≠ 0) (hk : k < 64) (u carry : Limb) :
    (do let moved ← Limb.shiftRightWithin u k
        let out ← Limb.shiftLeftWithin u (64 - k)
        return (moved ||| carry, out)) =
      some ((u >>> k.toUInt64) ||| carry, u <<< (64 - k.toUInt64)) := by
  have hrest : 64 - k < 64 := by omega
  rw [Limb.shiftRightWithin, if_pos hk, Limb.shiftLeftWithin, if_pos hrest,
    complement_amount h0 hk]
  rfl

theorem shiftLeft_finishes {k : Nat} (hk : k < Limb.bits) (hr : n ≤ (m r).length) :
    Finishes (shiftLeft n r k) m (Units.shiftLeft ((m r).take n) k).2
      (m.put r ((Units.shiftLeft ((m r).take n) k).1 ++ (m r).drop n)) (only r n) := by
  refine .guarded (by simp [hr, hk]) ?_
  rw [Units.shiftLeft]
  split
  · rw [List.take_append_drop, Operands.put_same]
    exact .quiet rfl
  · next h0 =>
    have hwalk := upward_finishes
      (fun u _ carry => ((u <<< k.toUInt64) ||| carry, u >>> (64 - k.toUInt64)))
      (fun u _ carry => shiftLeft_step h0 hk u carry) hr (by simp) (reads_nothing n) 0
    rw [pass_shiftLeft _ _ _ _ (by simp [hr])] at hwalk
    exact .after (front_ok hr) hwalk

theorem shiftRight_finishes {k : Nat} (hk : k < Limb.bits) (hr : n ≤ (m r).length) :
    Finishes (shiftRight n r k) m (Units.shiftRight ((m r).take n) k).2
      (m.put r ((Units.shiftRight ((m r).take n) k).1 ++ (m r).drop n)) (only r n) := by
  refine .guarded (by simp [hr, hk]) ?_
  rw [Units.shiftRight]
  split
  · rw [List.take_append_drop, Operands.put_same]
    exact .quiet rfl
  · next h0 =>
    have hwalk := downward_finishes
      (fun u _ carry => ((u >>> k.toUInt64) ||| carry, u <<< (64 - k.toUInt64)))
      (fun _ => True) (fun u _ carry _ => ⟨shiftRight_step h0 hk u carry, trivial⟩) hr (by simp)
      (reads_nothing n) (c := 0) trivial
    rw [passDown_shiftRight _ _ _ (by simp [hr])] at hwalk
    exact .after (front_ok hr) hwalk

/-! ## Sums and differences -/

section Arithmetic

variable [Rendition]

theorem add_finishes (hsr : s ≠ r) (htr : t ≠ r) (hr : n ≤ (m r).length) (hs : n ≤ (m s).length)
    (ht : n ≤ (m t).length) :
    Finishes (add n r s t) m (addCarry ((m s).take n) ((m t).take n) 0).2
      (m.put r ((addCarry ((m s).take n) ((m t).take n) 0).1 ++ (m r).drop n)) (only r n) := by
  have hwalk := across_finishes Limb.adc_within hsr htr hr hs ht 0
  rwa [pass_addCarry] at hwalk

theorem sub_finishes (hsr : s ≠ r) (htr : t ≠ r) (hr : n ≤ (m r).length) (hs : n ≤ (m s).length)
    (ht : n ≤ (m t).length) :
    Finishes (sub n r s t) m (subBorrow ((m s).take n) ((m t).take n) 0).2
      (m.put r ((subBorrow ((m s).take n) ((m t).take n) 0).1 ++ (m r).drop n)) (only r n) := by
  have hwalk := across_finishes Limb.sbb_within hsr htr hr hs ht 0
  rwa [pass_subBorrow] at hwalk

theorem addOnto_finishes (htr : t ≠ r) (hr : n ≤ (m r).length) (ht : n ≤ (m t).length) :
    Finishes (addOnto n r t) m (addCarry ((m r).take n) ((m t).take n) 0).2
      (m.put r ((addCarry ((m r).take n) ((m t).take n) 0).1 ++ (m r).drop n)) (only r n) := by
  have hwalk := along_finishes "t" Limb.adc_within htr hr ht 0
  rwa [pass_addCarry] at hwalk

theorem subFrom_finishes (htr : t ≠ r) (hr : n ≤ (m r).length) (ht : n ≤ (m t).length) :
    Finishes (subFrom n r t) m (subBorrow ((m r).take n) ((m t).take n) 0).2
      (m.put r ((subBorrow ((m r).take n) ((m t).take n) 0).1 ++ (m r).drop n)) (only r n) := by
  have hwalk := along_finishes "t" Limb.sbb_within htr hr ht 0
  rwa [pass_subBorrow] at hwalk

theorem addLimb_finishes (hsr : s ≠ r) (hr : n ≤ (m r).length) (hs : n ≤ (m s).length)
    (v : Limb) :
    Finishes (addLimb n r s v) m (Units.addLimb ((m s).take n) v).2
      (m.put r ((Units.addLimb ((m s).take n) v).1 ++ (m r).drop n)) (only r n) := by
  have hwalk := along_finishes "s" (fun _ u carry => Limb.adc_within u carry 0) hsr hr hs v
  rwa [pass_addLimb _ _ _ (by simp [hr, hs])] at hwalk

theorem subLimb_finishes (hsr : s ≠ r) (hr : n ≤ (m r).length) (hs : n ≤ (m s).length)
    (v : Limb) :
    Finishes (subLimb n r s v) m (Units.subLimb ((m s).take n) v).2
      (m.put r ((Units.subLimb ((m s).take n) v).1 ++ (m r).drop n)) (only r n) := by
  have hwalk := along_finishes "s" (fun _ u borrow => Limb.sbb_within u borrow 0) hsr hr hs v
  rwa [pass_subLimb _ _ _ (by simp [hr, hs])] at hwalk

/-! ## Products and quotients -/

theorem mulLimb_finishes (hsr : s ≠ r) (hr : n ≤ (m r).length) (hs : n ≤ (m s).length)
    (v : Limb) :
    Finishes (mulLimb n r s v) m (mulCarry ((m s).take n) v 0).2
      (m.put r ((mulCarry ((m s).take n) v 0).1 ++ (m r).drop n)) (only r n) := by
  have hwalk := along_finishes "s" (fun _ u carry => Limb.mac_within u v 0 carry) hsr hr hs 0
  rwa [pass_mulCarry _ _ _ _ (by simp [hr, hs])] at hwalk

theorem addMulLimb_finishes (hsr : s ≠ r) (hr : n ≤ (m r).length) (hs : n ≤ (m s).length)
    (v : Limb) :
    Finishes (addMulLimb n r s v) m (addMulCarry ((m r).take n) ((m s).take n) v 0).2
      (m.put r ((addMulCarry ((m r).take n) ((m s).take n) v 0).1 ++ (m r).drop n)) (only r n) := by
  have hwalk := along_finishes "s" (fun held u carry => Limb.mac_within u v held carry) hsr hr hs 0
  rwa [pass_addMulCarry] at hwalk

/-- The slice from limb `i` on holds the window of the row, and the limb above it. -/
theorem row_finishes {nt i : Nat} {u : Limb} (htr : t ≠ r) (hr : i + nt < (m r).length)
    (hs : (m s)[i]? = some u) (ht : nt ≤ (m t).length) :
    Finishes (row r s nt t i ()) m () (m.put r (addRow ((m t).take nt) u i (m r)).val)
      (only r (i + nt + 1)) := by
  obtain ⟨low, window, slot, high, hm, rfl, hwindow⟩ := window_at (m r) hr
  have hlt : ((m t).take nt).length = nt := by simp [ht]
  have hsum := addMulLimb_finishes (m := m.put r (window ++ slot :: high)) (n := nt) htr
    (by simp [hwindow]) (by rwa [Operands.put_other _ _ htr]) u
  rw [Operands.put_self, Operands.put_other _ _ htr, Operands.put_put, List.take_left' hwindow,
    List.drop_left' hwindow] at hsum
  have hadded : Finishes (beyond r low.length (addMulLimb nt r t u))
      (m.put r (low ++ (window ++ slot :: high))) _ _ (only r (low.length + nt + 1)) :=
    .beyond hsum (by rw [only_self, only_self]; omega)
      (fun q hq => by rw [only_other hq, only_other hq])
  rw [← List.append_assoc, ← hm, Operands.put_same, ← List.append_assoc] at hadded
  have hlen : (low ++ (addMulCarry window ((m t).take nt) u 0).1).length = low.length + nt := by
    rw [List.length_append, length_addMulCarry _ _ _ _ (by rw [hwindow, hlt]), hlt]
  have hstored := store_finishes (x := (addMulCarry window ((m t).take nt) u 0).2)
    (Operands.put_self m r (low ++ (addMulCarry window ((m t).take nt) u 0).1 ++ slot :: high))
  rw [hlen, Operands.put_put] at hstored
  rw [hm, addRow_window _ _ _ _ _ _ (by rw [hwindow, hlt])]
  refine .after (load_ok hs) (hadded.bind ?_)
  simpa using hstored

theorem rows_finish {nt : Nat} (hsr : s ≠ r) (htr : t ≠ r) (ss : Units) (i : Nat) (m : Operands)
    (hr : i + ss.length + nt ≤ (m r).length)
    (hs : ∀ j u, ss[j]? = some u → (m s)[i + j]? = some u) (ht : nt ≤ (m t).length) :
    Finishes (upward (row r s nt t) ss.length i ()) m ()
      (m.put r (addRows ((m t).take nt) ss i (m r)).val) (only r (i + ss.length + nt)) := by
  induction ss generalizing i m with
  | nil =>
    rw [addRows, Recorded.val_pure, Operands.put_same]
    exact .quiet rfl
  | cons u us ih =>
    rw [List.length_cons] at hr ⊢
    have hread : (m s)[i]? = some u := hs 0 u rfl
    have hrow := row_finishes htr (by omega) hread ht
    have hlen := hrow.kept.length r
    have hnext := ih (i + 1) (m.put r (addRow ((m t).take nt) u i (m r)).val) (by omega)
      (fun j v hv => by
        rw [Operands.put_other _ _ hsr, Nat.add_right_comm]
        exact hs (j + 1) v (by simpa using hv))
      (by rwa [Operands.put_other _ _ htr])
    rw [Operands.put_other _ _ htr, Operands.put_self, Operands.put_put] at hnext
    refine (hrow.mono (only_le ?_)).bind (hnext.mono (only_le ?_))
    all_goals
      rw [only_self]
      omega

theorem mulLengths_finishes {ns nt : Nat} (hsr : s ≠ r) (htr : t ≠ r)
    (hr : ns + nt ≤ (m r).length) (hs : ns ≤ (m s).length) (ht : nt ≤ (m t).length) :
    Finishes (mulLengths r ns s nt t) m ()
      (m.put r (Units.mul ((m s).take ns) ((m t).take nt) ++ (m r).drop (ns + nt)))
      (only r (ns + nt)) := by
  have hls : ((m s).take ns).length = ns := by simp [hs]
  have hlt : ((m t).take nt).length = nt := by simp [ht]
  have hproduct := addRows_mul_over ((m s).take ns) ((m t).take nt) ((m r).drop (ns + nt))
  have hlen : 0 + ((m s).take ns).length + nt ≤
      ((m.put r (zeros (ns + nt) ++ (m r).drop (ns + nt))) r).length := by simp [hs]
  have hrows := rows_finish hsr htr ((m s).take ns) 0 _ hlen
    (fun i u hu => by
      rw [Nat.zero_add, Operands.put_other _ _ hsr]
      exact held_of_front hu)
    (by rwa [Operands.put_other _ _ htr])
  rw [hls, hlt] at hproduct
  rw [hls, Operands.put_other _ _ htr, Operands.put_self, Operands.put_put, hproduct,
    Nat.zero_add] at hrows
  refine .guarded (by simp [hr, hs, ht]) ((zero_finishes hr).bind (.after (front_ok ?_) hrows))
  rwa [Operands.put_other _ _ hsr]

end Arithmetic

theorem divLimb_step {d rem : Limb} (h : rem < d) (u : Limb) :
    Limb.divWithin rem u d = some (Limb.divDouble rem u d) ∧ (Limb.divDouble rem u d).2 < d := by
  refine ⟨if_pos h, ?_⟩
  rw [UInt64.lt_iff_toNat_lt]
  exact (Limb.div_double_value rem u d (UInt64.lt_iff_toNat_lt.mp h)).2

/-- What is brought down stays below the divisor, so every quotient fits. -/
theorem divLimb_finishes (hsr : s ≠ r) {d : Limb} (hd : d ≠ 0) (hr : n ≤ (m r).length)
    (hs : n ≤ (m s).length) :
    Finishes (divLimb n r s d) m (Units.divLimb ((m s).take n) d).2
      (m.put r ((Units.divLimb ((m s).take n) d).1 ++ (m r).drop n)) (only r n) := by
  have hpos : 0 < d := UInt64.pos_iff_ne_zero.mpr hd
  have hwalk := downward_finishes (fun _ u rem => Limb.divDouble rem u d) (· < d)
    (fun _ u _ hrem => divLimb_step hrem u) hr (by simp [hs]) (reads_load hsr n) hpos
  rw [passDown_divLimb _ _ _ (by simp [hr, hs])] at hwalk
  exact .guarded (by simp [hr, hs, hd]) hwalk

/-! ## Measures -/

theorem compare_run (hs : n ≤ (m s).length) (ht : n ≤ (m t).length) :
    compare n s t m = ⟨.ok (Units.compare ((m s).take n) ((m t).take n)), m, []⟩ := by
  have hwalk := gather_run settle n (((m s).take n).zip ((m t).take n)) (by simp [hs, ht])
    (fun _ _ => pair_front) .eq
  rw [gather_compare] at hwalk
  rw [compare, guarded_passed (by simp [hs, ht]), bind_quiet (front_ok hs),
    bind_quiet (front_ok ht), hwalk]
  rfl

theorem isZero_run (hs : n ≤ (m s).length) :
    isZero n s m = ⟨.ok (Units.isZero ((m s).take n)), m, []⟩ := by
  have hwalk := gather_run (fun _ u all => all ||| u) n ((m s).take n) (by simp [hs])
    (fun _ _ => load_front) 0
  rw [gather_or] at hwalk
  rw [isZero, guarded_passed (by simp [hs]), bind_quiet (front_ok hs), bind_quiet hwalk]
  rfl

theorem significant_run (hs : n ≤ (m s).length) :
    significant n s m = ⟨.ok (Units.significant ((m s).take n)), m, []⟩ := by
  rw [significant, measure_run countTo hs, gather_significant]
  rfl

theorem bitLength_run (hs : n ≤ (m s).length) :
    bitLength n s m = ⟨.ok (Units.bitLength ((m s).take n)), m, []⟩ := by
  rw [bitLength, measure_run bitsTo hs, gather_bitLength]
  rfl

theorem isZero_within {low high : Nat} (hlow : low ≤ high) (hhigh : high ≤ (m s).length) :
    within s low high (isZero (high - low) s) m =
      ⟨.ok (Units.isZero (((m s).take high).drop low)), m, []⟩ := by
  refine within_quiet hlow hhigh ?_
  have hslice : (((m s).take high).drop low).length = high - low := by simp [hhigh]
  rw [isZero_run (by simp [hhigh]), Operands.put_self, List.take_of_length_le hslice.le]

theorem compareUneven_run {ns nt : Nat} (hs : ns ≤ (m s).length) (ht : nt ≤ (m t).length) :
    compareUneven ns s nt t m =
      ⟨.ok (Units.compareUneven ((m s).take ns) ((m t).take nt)), m, []⟩ := by
  have hls : ((m s).take ns).length = ns := by simp [hs]
  have hlt : ((m t).take nt).length = nt := by simp [ht]
  rw [compareUneven, guarded_passed (by simp [hs, ht]), Units.compareUneven, hls, hlt]
  split
  · next hle =>
    have hlow := compare_run (m := m) hs (hle.trans ht)
    have hcommon := compare_front ((m s).take ns) ((m t).take nt) ns (.inl hls.le)
    rw [List.take_take, Nat.min_self, List.take_take, Nat.min_eq_left hle] at hcommon
    rw [bind_quiet hlow, bind_quiet (isZero_within hle ht), hcommon]
    rfl
  · next hlt' =>
    have hle : nt ≤ ns := Nat.le_of_lt (Nat.lt_of_not_le hlt')
    have hlow := compare_run (m := m) (hle.trans hs) ht
    have hcommon := compare_front ((m s).take ns) ((m t).take nt) nt (.inr hlt.le)
    rw [List.take_take, Nat.min_eq_left hle, List.take_take, Nat.min_self] at hcommon
    rw [bind_quiet hlow, bind_quiet (isZero_within hle hs), hcommon]
    rfl

end CryptoPrimitives.Units.InPlace
