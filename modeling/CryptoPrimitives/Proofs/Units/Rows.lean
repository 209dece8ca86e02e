import CryptoPrimitives.Proofs.Units.Prefix
import CryptoPrimitives.Recorded

/-!
# Products and quotients with nothing lost

A product grows in its own destination: each row is added where it belongs, and its carry is stored
in the limb above, over a zero that no earlier row has reached. A division by one limb brings its
remainder down, which stays below the divisor, so each quotient fits a limb. The rows note down
what their carries are stored over, and the division notes what it divides.
-/

set_option autoImplicit false

namespace CryptoPrimitives.Units

/-! ## Rows in place -/

section Rows

variable [Rendition]

def addRow (t : Units) (s : Limb) (i : Nat) (r : Units) : Recorded Limb Units := do
  let (row, top) := addMulCarry ((r.drop i).take t.length) t s 0
  Recorded.note (r.getD (i + t.length) 0)
  return r.take i ++ (row ++ [top]) ++ r.drop (i + t.length + 1)

def addRows (t : Units) : Units → Nat → Units → Recorded Limb Units
  | [], _, r => return r
  | s :: ss, i, r => do
    let r ← addRow t s i r
    addRows t ss (i + 1) r

/-- A row touches a window of the destination and one limb above it. -/
theorem addRow_window (t : Units) (s slot : Limb) (low window high : Units)
    (h : window.length = t.length) :
    addRow t s low.length (low ++ window ++ slot :: high) =
      ⟨low ++ ((addMulCarry window t s 0).1 ++ [(addMulCarry window t s 0).2]) ++ high,
        [slot]⟩ := by
  have hwindow : (((low ++ window ++ slot :: high).drop low.length).take t.length) = window := by
    simp [← h]
  have hlow : (low ++ window ++ slot :: high).take low.length = low := by simp
  have hhigh : (low ++ window ++ slot :: high).drop (low.length + t.length + 1) = high := by
    rw [← h, ← List.length_append, List.drop_append]
    simp
  have hslot : (low ++ window ++ slot :: high).getD (low.length + t.length) 0 = slot := by
    rw [← h, ← List.length_append]
    simp [List.getD_eq_getElem?_getD]
  apply Recorded.ext
  · simp only [addRow, Recorded.val_bind, Recorded.val_pure, hwindow, hlow, hhigh]
  · simp only [addRow, Recorded.entries_bind, Recorded.entries_pure, hslot]
    rfl

/-- The rows build the product, and every carry goes where nothing has been stored yet. -/
theorem addRows_mulRows (t ss low window past : Units) (h : window.length = t.length) :
    addRows t ss low.length (low ++ window ++ zeros ss.length ++ past) =
      ⟨low ++ mulRows t ss window ++ past, zeros ss.length⟩ := by
  induction ss generalizing low window with
  | nil => simp [addRows, mulRows, zeros]; rfl
  | cons s ss ih =>
    obtain ⟨settled, rest, hrow, hrest, hrows⟩ := row_settles t window s h
    have hslot : low ++ window ++ zeros (s :: ss).length ++ past =
        low ++ window ++ 0 :: (zeros ss.length ++ past) := by
      simp [zeros, List.replicate_succ]
    have hmoved : low ++ settled :: rest ++ (zeros ss.length ++ past) =
        low ++ [settled] ++ rest ++ zeros ss.length ++ past := by simp
    have hnext := ih (low ++ [settled]) rest hrest
    rw [List.length_append, List.length_singleton] at hnext
    rw [addRows, hslot, addRow_window t s 0 low window _ h, hrow, hmoved, hrows]
    apply Recorded.ext
    · simp only [Recorded.val_bind, hnext]
      simp
    · simp only [Recorded.entries_bind, hnext]
      rfl

theorem addRows_mul_over (s t past : Units) :
    addRows t s 0 (zeros (s.length + t.length) ++ past) = ⟨mul s t ++ past, zeros s.length⟩ := by
  have hzeros : zeros (s.length + t.length) ++ past =
      [] ++ zeros t.length ++ zeros s.length ++ past := by
    simp [zeros, List.replicate_append_replicate, Nat.add_comm]
  rw [hzeros]
  exact addRows_mulRows t s [] (zeros t.length) past (length_zeros _)

theorem addRows_mul (s t : Units) :
    addRows t s 0 (zeros (s.length + t.length)) = ⟨mul s t, zeros s.length⟩ := by
  simpa using addRows_mul_over s t []

end Rows

/-! ## Divided limbs -/

structure Dividend where
  high : Limb
  low : Limb
  deriving DecidableEq, Repr

def divLimbNoted : Units → Limb → Recorded Dividend (Units × Limb)
  | [], _ => return ([], 0)
  | u :: us, d => do
    let (qs, rem) ← divLimbNoted us d
    Recorded.note ⟨rem, u⟩
    let (q, r) := Limb.divDouble rem u d
    return (q :: qs, r)

theorem divLimbNoted_val (us : Units) (d : Limb) : (divLimbNoted us d).val = divLimb us d := by
  induction us with
  | nil => rfl
  | cons u us ih => simp [divLimbNoted, divLimb, ih]

theorem divLimbNoted_cons (u : Limb) (us : Units) (d : Limb) :
    (divLimbNoted (u :: us) d).entries =
      (divLimbNoted us d).entries ++ [⟨(divLimb us d).2, u⟩] := by
  rw [← divLimbNoted_val]
  rfl

theorem divLimbNoted_low (us : Units) (d : Limb) :
    (divLimbNoted us d).entries.map Dividend.low = us.reverse := by
  induction us with
  | nil => rfl
  | cons u us ih => simp [divLimbNoted_cons, ih]

/-- What is brought down is a remainder by the same divisor. -/
theorem divLimbNoted_high (us : Units) (d : Limb) (hd : d ≠ 0) :
    ∀ e ∈ (divLimbNoted us d).entries, e.high.toNat < d.toNat := by
  induction us with
  | nil => simp [divLimbNoted]
  | cons u us ih =>
    intro e he
    rw [divLimbNoted_cons, List.mem_append, List.mem_singleton] at he
    rcases he with he | rfl
    · exact ih e he
    · exact (divLimb_value us d hd).2

/-! ## Stated lengths -/

theorem divLimb_writes {n : Nat} {q s : Units} {d : Limb} (hd : d ≠ 0) (hq : n ≤ q.length)
    (hs : n ≤ s.length) :
    ∃ limbs rem, Checked.divLimb n q s d = .ok ⟨rem, limbs ++ q.drop n⟩ ∧ limbs.length = n ∧
      val limbs * d.toNat + rem.toNat = val (s.take n) ∧ rem < d ∧
      (divLimbNoted (s.take n) d).val = (limbs, rem) ∧
      (divLimbNoted (s.take n) d).entries.map Dividend.low = (s.take n).reverse ∧
      ∀ e ∈ (divLimbNoted (s.take n) d).entries, e.high < d := by
  obtain ⟨hval, hlt⟩ := divLimb_value (s.take n) d hd
  refine ⟨_, _, Checked.divLimb_accepted hd hq hs, ?_, hval, ?_, divLimbNoted_val _ _,
    divLimbNoted_low _ _, fun e he => ?_⟩
  · rw [length_divLimb, List.length_take, Nat.min_eq_left hs]
  · exact UInt64.lt_iff_toNat_lt.mpr hlt
  · exact UInt64.lt_iff_toNat_lt.mpr (divLimbNoted_high _ _ hd e he)

section Stated

variable [Rendition]

/-- The product of the stated limbs, made in rows, and the same whatever the destination held. -/
theorem mulLengths_writes {ns nt : Nat} {s t : Units} (hs : ns ≤ s.length) (ht : nt ≤ t.length) :
    ∃ product, product.length = ns + nt ∧ val product = val (s.take ns) * val (t.take nt) ∧
      addRows (t.take nt) (s.take ns) 0 (zeros (ns + nt)) = ⟨product, zeros ns⟩ ∧
      ∀ r : Units, ns + nt ≤ r.length →
        Checked.mulLengths r ns s nt t = .ok (product ++ r.drop (ns + nt)) := by
  have hls : (s.take ns).length = ns := by simp [hs]
  have hlt : (t.take nt).length = nt := by simp [ht]
  have hrows := addRows_mul (s.take ns) (t.take nt)
  rw [hls, hlt] at hrows
  refine ⟨_, ?_, mul_value _ _, hrows, fun r hr => Checked.mulLengths_accepted hr hs ht⟩
  rw [length_mul, hls, hlt]

/-- Products and quotients of the stated limbs are exact, with the limb that is returned above a
product and below the divisor. The rows of a product find zeros where they store their carries, and
no dividend is as large as the divisor in its upper limb. -/
theorem products_and_quotients_exact :
    (∀ (ns nt : Nat) (s t : Units), ns ≤ s.length → nt ≤ t.length →
      ∃ product, product.length = ns + nt ∧ val product = val (s.take ns) * val (t.take nt) ∧
        addRows (t.take nt) (s.take ns) 0 (zeros (ns + nt)) = ⟨product, zeros ns⟩ ∧
        ∀ r : Units, ns + nt ≤ r.length →
          Checked.mulLengths r ns s nt t = .ok (product ++ r.drop (ns + nt))) ∧
    (∀ (n : Nat) (s t : Units), n ≤ s.length → n ≤ t.length →
      ∃ product, product.length = 2 * n ∧ val product = val (s.take n) * val (t.take n) ∧
        ∀ r : Units, 2 * n ≤ r.length →
          Checked.mul n r s t = .ok (product ++ r.drop (2 * n))) ∧
    (∀ (n : Nat) (r s : Units) (v : Limb), n ≤ r.length → n ≤ s.length →
      (∃ limbs out, Checked.mulLimb n r s v = .ok ⟨out, limbs ++ r.drop n⟩ ∧ limbs.length = n ∧
        val limbs + out.toNat * 2 ^ (64 * n) = val (s.take n) * v.toNat) ∧
      ∃ limbs out, Checked.addMulLimb n r s v = .ok ⟨out, limbs ++ r.drop n⟩ ∧ limbs.length = n ∧
        val limbs + out.toNat * 2 ^ (64 * n) = val (r.take n) + val (s.take n) * v.toNat) ∧
    ∀ (n : Nat) (q s : Units) (d : Limb), d ≠ 0 → n ≤ q.length → n ≤ s.length →
      ∃ limbs rem, Checked.divLimb n q s d = .ok ⟨rem, limbs ++ q.drop n⟩ ∧ limbs.length = n ∧
        val limbs * d.toNat + rem.toNat = val (s.take n) ∧ rem < d ∧
        (divLimbNoted (s.take n) d).val = (limbs, rem) ∧
        (divLimbNoted (s.take n) d).entries.map Dividend.low = (s.take n).reverse ∧
        ∀ e ∈ (divLimbNoted (s.take n) d).entries, e.high < d := by
  refine ⟨fun ns nt s t hs ht => mulLengths_writes hs ht, fun n s t hs ht => ?even,
    fun n r s v hr hs => ⟨Checked.mulLimb_writes hr hs v, Checked.addMulLimb_writes hr hs v⟩,
    fun n q s d hd hq hs => divLimb_writes hd hq hs⟩
  case even =>
    obtain ⟨product, hlen, hval, -, hok⟩ := mulLengths_writes hs ht
    rw [← Nat.two_mul] at hlen hok
    exact ⟨product, hlen, hval, hok⟩

end Stated

/-- All ones squared over a destination that holds other limbs, and divided by a limb that is nearly
all ones. -/
theorem products_and_quotients_exact_ones :
    let ones : Units := [0xffffffffffffffff, 0xffffffffffffffff]
    (∃ product : Units, val product = val ones * val ones ∧
      Checked.mul 2 [9, 9, 9, 9, 9] ones ones = .ok (product ++ [9])) ∧
      ∃ limbs rem, Checked.divLimb 2 [9, 9, 9] ones 0xfffffffffffffffe = .ok ⟨rem, limbs ++ [9]⟩ ∧
        val limbs * 0xfffffffffffffffe + rem.toNat = val ones ∧ rem < 0xfffffffffffffffe := by
  intro ones
  obtain ⟨-, hmul, -, hdiv⟩ := products_and_quotients_exact
  obtain ⟨product, -, hval, hok⟩ := hmul 2 ones ones (by decide) (by decide)
  obtain ⟨limbs, rem, hquotient, -, hexact, hlt, -⟩ :=
    hdiv 2 [9, 9, 9] ones 0xfffffffffffffffe (by decide) (by decide) (by decide)
  exact ⟨⟨product, hval, hok _ (by decide)⟩, limbs, rem, hquotient, hexact, hlt⟩

end CryptoPrimitives.Units
