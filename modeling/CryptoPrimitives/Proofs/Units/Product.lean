import CryptoPrimitives.Proofs.Units.Sum
import CryptoPrimitives.Units.Product

/-!
# Values of products

One limb times many, with and without an addend, and the schoolbook product: a row of the product
plus the window it is added into never needs more than one limb above the window.
-/

set_option autoImplicit false

namespace CryptoPrimitives.Units

variable [Rendition]

theorem length_mulCarry (s : Units) (v carry : Limb) :
    (mulCarry s v carry).1.length = s.length := by
  induction s generalizing carry with
  | nil => rfl
  | cons s ss ih => simp [mulCarry, ih]

theorem mulCarry_value (s : Units) (v carry : Limb) :
    val (mulCarry s v carry).1 + 2 ^ (64 * s.length) * (mulCarry s v carry).2.toNat =
      val s * v.toNat + carry.toNat := by
  induction s generalizing carry with
  | nil => simp [mulCarry]
  | cons s ss ih =>
    have hd := Limb.mac_value s v 0 carry
    have hr := ih (Limb.mac s v 0 carry).2
    have h0 : (0 : Limb).toNat = 0 := rfl
    simp only [mulCarry, val_cons, List.length_cons, pow_limb_succ, Nat.mul_assoc, Nat.add_mul]
    omega

theorem length_addMulCarry (r s : Units) (v carry : Limb) (h : r.length = s.length) :
    (addMulCarry r s v carry).1.length = s.length := by
  induction s generalizing r carry with
  | nil => simp [addMulCarry]
  | cons s ss ih =>
    cases r with
    | nil => simp at h
    | cons r rs => simp [addMulCarry, ih rs _ (by simpa using h)]

theorem addMulCarry_value (r s : Units) (v carry : Limb) (h : r.length = s.length) :
    val (addMulCarry r s v carry).1 + 2 ^ (64 * s.length) * (addMulCarry r s v carry).2.toNat =
      val r + val s * v.toNat + carry.toNat := by
  induction s generalizing r carry with
  | nil => simp [addMulCarry, List.length_eq_zero_iff.mp h]
  | cons s ss ih =>
    cases r with
    | nil => simp at h
    | cons r rs =>
      have hd := Limb.mac_value s v r carry
      have hr := ih rs (Limb.mac s v r carry).2 (by simpa using h)
      simp only [addMulCarry, val_cons, List.length_cons, pow_limb_succ, Nat.mul_assoc,
        Nat.add_mul]
      omega

/-- A row settles the lowest limb of its window and leaves a window for the next row. -/
theorem row_settles (t window : Units) (s : Limb) (h : window.length = t.length) :
    ∃ settled rest, (addMulCarry window t s 0).1 ++ [(addMulCarry window t s 0).2] =
      settled :: rest ∧ rest.length = t.length ∧
      ∀ ss, mulRows t (s :: ss) window = settled :: mulRows t ss rest := by
  have hn : (addMulCarry window t s 0).1 ++ [(addMulCarry window t s 0).2] ≠ [] := by simp
  obtain ⟨settled, rest, hrow⟩ := List.exists_cons_of_ne_nil hn
  have hlen := congrArg List.length hrow
  rw [List.length_append, List.length_singleton, length_addMulCarry window t s 0 h,
    List.length_cons] at hlen
  refine ⟨settled, rest, hrow, by omega, fun ss => ?_⟩
  rw [mulRows]
  simp only [hrow]

theorem mulRows_row (t window : Units) (s : Limb) (h : window.length = t.length) :
    ∃ settled rest, (∀ ss, mulRows t (s :: ss) window = settled :: mulRows t ss rest) ∧
      rest.length = t.length ∧
      settled.toNat + 2 ^ 64 * val rest = val window + val t * s.toNat := by
  obtain ⟨settled, rest, hrow, hrest, hrows⟩ := row_settles t window s h
  have hv := addMulCarry_value window t s 0 h
  have hval := congrArg val hrow
  rw [val_append, length_addMulCarry window t s 0 h, val_cons, val_nil, Nat.mul_zero,
    Nat.add_zero, val_cons] at hval
  have h0 : (0 : Limb).toNat = 0 := rfl
  exact ⟨settled, rest, hrows, hrest, by omega⟩

theorem length_mulRows (t s window : Units) (h : window.length = t.length) :
    (mulRows t s window).length = s.length + t.length := by
  induction s generalizing window with
  | nil => simp [mulRows, h]
  | cons s ss ih =>
    obtain ⟨settled, rest, hrow, hl, -⟩ := mulRows_row t window s h
    rw [hrow, List.length_cons, ih rest hl, List.length_cons]
    omega

theorem mulRows_value (t s window : Units) (h : window.length = t.length) :
    val (mulRows t s window) = val window + val s * val t := by
  induction s generalizing window with
  | nil => simp [mulRows]
  | cons s ss ih =>
    obtain ⟨settled, rest, hrow, hl, hv⟩ := mulRows_row t window s h
    rw [hrow, val_cons, ih rest hl, Nat.mul_add, ← Nat.add_assoc, hv, val_cons]
    ring

theorem length_mul (s t : Units) : (mul s t).length = s.length + t.length :=
  length_mulRows t s _ (length_zeros _)

theorem mul_value (s t : Units) : val (mul s t) = val s * val t := by
  rw [mul, mulRows_value t s _ (length_zeros _), val_zeros, Nat.zero_add]

theorem scaleAdd_value (us : Units) (v a : Limb) :
    val (scaleAdd us v a) = val us * v.toNat + a.toNat := by
  have hv := mulCarry_value us v a
  unfold scaleAdd
  simp only
  split
  · next h0 =>
    rw [h0] at hv
    simpa using hv
  · rw [val_append, length_mulCarry, val_cons, val_nil, Nat.mul_zero, Nat.add_zero, hv]

end CryptoPrimitives.Units
