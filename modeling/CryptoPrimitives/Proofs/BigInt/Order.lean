import CryptoPrimitives.Proofs.BigInt.Made
import CryptoPrimitives.Proofs.Units.Order

/-!
# The order of numbers

Numbers are compared by sign and then by limbs, equality compares signs and limbs, and the equality
and the selection without a branch walk the longer of two lists. On canonical numbers all of them
agree with the integers, so that the order is the linear order of the integers and its equality is
that of signs and limbs.
-/

set_option autoImplicit false

namespace CryptoPrimitives.BigInt

/-! ## Comparison -/

theorem compareAbs_value (a b : BigInt) :
    a.compareAbs b = Ord.compare a.toInt.natAbs b.toInt.natAbs := by
  rw [toInt_natAbs, toInt_natAbs, compareAbs, Units.compareUneven_value]
  rfl

theorem compare_casts (m n : Nat) : Ord.compare (m : Int) (n : Int) = Ord.compare m n := by
  rw [Int.compare_eq_ite_lt, Nat.compare_eq_ite_lt]
  simp only [Int.ofNat_lt]

theorem compare_negatives (v w : Int) : Ord.compare (-v) (-w) = Ord.compare w v := by
  rw [Int.compare_eq_ite_lt, Int.compare_eq_ite_lt]
  simp only [Int.neg_lt_neg_iff]

/-- A sign decides against the other one, and turns the order of the magnitudes around if both
numbers are negative. -/
theorem compare_value {a b : BigInt} (ha : Canonical a) (hb : Canonical b) :
    a.compare b = Ord.compare a.toInt b.toInt := by
  have haneg := ha.negative_iff
  have hbneg := hb.negative_iff
  have hab := compareAbs_value a b
  have hba := compareAbs_value b a
  rw [toInt_natAbs, toInt_natAbs] at hab hba
  rw [compare]
  cases han : a.negative <;> cases hbn : b.negative <;> rw [han] at haneg <;> rw [hbn] at hbneg
  case false.false =>
    rw [toInt_eq, toInt_eq, han, hbn]
    exact hab.trans (compare_casts _ _).symm
  case true.true =>
    rw [toInt_eq, toInt_eq, han, hbn]
    exact hba.trans ((compare_negatives _ _).trans (compare_casts _ _)).symm
  case true.false =>
    have hlt : a.toInt < b.toInt := by simp at haneg hbneg; omega
    exact (Int.compare_eq_lt.mpr hlt).symm
  case false.true =>
    have hgt : b.toInt < a.toInt := by simp at haneg hbneg; omega
    exact (Int.compare_eq_gt.mpr hgt).symm

theorem compare_eq_iff {a b : BigInt} (ha : Canonical a) (hb : Canonical b) :
    a.compare b = .eq ↔ a.same b = true := by
  rw [compare_value ha hb, Int.compare_eq_eq, same_iff ha hb]

/-! ## Equality without an early exit -/

theorem all_equal (a b : Units) (acc : Bool) (h : a.length = b.length) :
    (List.zipWith (· == ·) a b).foldl (· && ·) acc = true ↔ acc = true ∧ a = b := by
  induction a generalizing b acc with
  | nil => simp [List.length_eq_zero_iff.mp h.symm]
  | cons u us ih =>
    cases b with
    | nil => simp at h
    | cons v vs =>
      rw [List.zipWith_cons_cons, List.foldl_cons, ih vs _ (by simpa using h), Bool.and_eq_true,
        beq_iff_eq, List.cons_eq_cons, and_assoc]

/-- Zero limbs past the shorter list leave the values as they are. -/
theorem sameLimbs_iff (a b : Units) : sameLimbs a b = true ↔ Units.val a = Units.val b := by
  have hla := Units.length_padTo (max a.length b.length) a (Nat.le_max_left _ _)
  have hlb := Units.length_padTo (max a.length b.length) b (Nat.le_max_right _ _)
  rw [sameLimbs, all_equal _ _ _ (hla.trans hlb.symm), eq_self_iff_true, true_and]
  constructor
  · intro h
    rw [← Units.val_padTo (max a.length b.length) a, h, Units.val_padTo]
  · intro h
    apply Units.val_injective _ _ (hla.trans hlb.symm)
    rw [Units.val_padTo, Units.val_padTo, h]

theorem constEq_iff {a b : BigInt} (ha : Canonical a) (hb : Canonical b) :
    a.constEq b = true ↔ a.toInt = b.toInt := by
  rw [constEq, Bool.and_eq_true, beq_iff_eq, sameLimbs_iff, ha.toInt_eq_iff hb]
  refine and_congr_right fun _ => ⟨fun h => ha.units_congr hb h, fun h => by rw [h]⟩

/-! ## Selection -/

/-- The number that is chosen is extended by zero limbs and written anew, whatever the other is. -/
theorem select_eq (a b : BigInt) (choice : Bool) :
    (select a b choice).val =
      (zero.write (Units.padTo (max a.units.length b.units.length)
        (if choice then b else a).units)).val.withSign (if choice then b else a).negative := by
  have hla := Units.length_padTo (max a.units.length b.units.length) a.units (Nat.le_max_left _ _)
  have hlb := Units.length_padTo (max a.units.length b.units.length) b.units (Nat.le_max_right _ _)
  rw [select, Units.assignIf_eq _ _ _ (hla.trans hlb.symm)]
  cases choice <;> rfl

theorem select_represents (a b : BigInt) (choice : Bool) :
    Represents (select a b choice).val (if choice then b else a).toInt := by
  rw [select_eq]
  generalize (if choice then b else a) = chosen
  have hr := (write_written (empty_canonical .secure)
    (Units.padTo (max a.units.length b.units.length) chosen.units)).represents chosen.negative
  rw [Units.val_padTo] at hr
  exact hr

/-! ## The linear order -/

structure OrderLaws : Prop where
  swapped : ∀ a b, Canonical a → Canonical b → b.compare a = (a.compare b).swap
  total : ∀ a b, Canonical a → Canonical b → (a.compare b).isLE ∨ (b.compare a).isLE
  antisymmetric : ∀ a b, Canonical a → Canonical b → (a.compare b).isLE → (b.compare a).isLE →
    a.same b = true
  transitive : ∀ a b c, Canonical a → Canonical b → Canonical c → (a.compare b).isLE →
    (b.compare c).isLE → (a.compare c).isLE

theorem compare_isLE_iff {a b : BigInt} (ha : Canonical a) (hb : Canonical b) :
    (a.compare b).isLE ↔ a.toInt ≤ b.toInt := by
  rw [compare_value ha hb, Int.isLE_compare]

theorem order_laws : OrderLaws where
  swapped a b ha hb := by rw [compare_value ha hb, compare_value hb ha, Int.compare_swap]
  total a b ha hb := by
    rw [compare_isLE_iff ha hb, compare_isLE_iff hb ha]
    exact Int.le_total _ _
  antisymmetric a b ha hb hab hba := by
    rw [compare_isLE_iff ha hb] at hab
    rw [compare_isLE_iff hb ha] at hba
    exact (same_iff ha hb).mpr (Int.le_antisymm hab hba)
  transitive a b c ha hb hc hab hbc := by
    rw [compare_isLE_iff ha hb] at hab
    rw [compare_isLE_iff hb hc] at hbc
    exact (compare_isLE_iff ha hc).mpr (Int.le_trans hab hbc)

/-- Every way to compare two numbers agrees with the integers that they stand for, whatever buffers
hold them, and so with every other way. The order is linear. A selection stands for the number that
is chosen and is canonical, whatever the operands are. -/
theorem comparisons_follow_integers :
    (∀ a b, Canonical a → Canonical b →
      a.compare b = Ord.compare a.toInt b.toInt ∧
      a.partialCompare b = some (Ord.compare a.toInt b.toInt) ∧
      a.compareAbs b = Ord.compare a.toInt.natAbs b.toInt.natAbs ∧
      (a.same b = true ↔ a.toInt = b.toInt) ∧ (a.constEq b = true ↔ a.toInt = b.toInt) ∧
      (a.compare b = .eq ↔ a.same b = true)) ∧
    OrderLaws ∧
    ∀ (a b : BigInt) (choice : Bool),
      Represents (select a b choice).val (if choice then b else a).toInt :=
  ⟨fun a b ha hb => ⟨compare_value ha hb, congrArg some (compare_value ha hb),
    compareAbs_value a b, same_iff ha hb, constEq_iff ha hb, compare_eq_iff ha hb⟩,
    order_laws, select_represents⟩

/-- A longer negative number below a shorter positive one, equal numbers in unequal buffers, and the
shorter of two numbers chosen. -/
theorem comparisons_follow_integers_mixed :
    let a : BigInt := ⟨[7, 9, 0, 0], 2, true, .pool 1⟩
    let b : BigInt := ⟨[5], 1, false, .secure⟩
    let c : BigInt := ⟨[5, 0, 0], 1, false, .pool 2⟩
    Canonical a ∧ Canonical b ∧ Canonical c ∧ a.compare b = .lt ∧ a.compareAbs b = .gt ∧
      b.same c = true ∧ b.constEq c = true ∧ (b.compare a).isLE = false ∧
      Represents (select a b true).val 5 := by
  intro a b c
  have ha : Canonical a := ⟨by decide, rfl, by decide, by decide⟩
  have hb : Canonical b := ⟨by decide, rfl, by decide, by decide⟩
  have hc : Canonical c := ⟨by decide, rfl, by decide, by decide⟩
  obtain ⟨hagree, hlaws, hselect⟩ := comparisons_follow_integers
  obtain ⟨hcompare, -, habs, -, -, -⟩ := hagree a b ha hb
  obtain ⟨-, -, -, hsame, hconst, -⟩ := hagree b c hb hc
  have hlt : a.compare b = .lt := hcompare.trans (by decide)
  refine ⟨ha, hb, hc, hlt, habs.trans (by decide), hsame.mpr (by decide), hconst.mpr (by decide),
    ?_, hselect a b true⟩
  rw [hlaws.swapped a b ha hb, hlt]
  rfl

end CryptoPrimitives.BigInt
