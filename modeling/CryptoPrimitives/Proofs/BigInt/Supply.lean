import CryptoPrimitives.Proofs.BigInt.Canonical

/-!
# Supplies by their contract

Any supply that hands out zero-filled buffers of the length asked for, and keeps the contents of a
buffer that it makes longer, is the one that is in force unless another is named. So whatever is
true of numbers is true of them over every such supply.
-/

set_option autoImplicit false

namespace CryptoPrimitives.Supply

structure Lawful [Supply] : Prop where
  length_take : ∀ owner n, (take owner n).length = n
  take_clear : ∀ owner n, ∀ u ∈ take owner n, u = 0
  length_extend : ∀ owner buffer more, (extend owner buffer more).length = buffer.length + more
  extend_keeps : ∀ owner buffer more, (extend owner buffer more).take buffer.length = buffer
  extend_clear : ∀ owner buffer more, ∀ u ∈ (extend owner buffer more).drop buffer.length, u = 0

namespace Lawful

variable [Supply]

theorem take_eq (h : Lawful) (owner : Allocator) (n : Nat) : take owner n = Units.zeros n :=
  List.eq_replicate_iff.mpr ⟨h.length_take owner n, h.take_clear owner n⟩

theorem extend_eq (h : Lawful) (owner : Allocator) (buffer : Units) (more : Nat) :
    extend owner buffer more = buffer ++ Units.zeros more := by
  have hrest : (extend owner buffer more).drop buffer.length = Units.zeros more := by
    apply List.eq_replicate_iff.mpr
    refine ⟨?_, h.extend_clear owner buffer more⟩
    rw [List.length_drop, h.length_extend, Nat.add_sub_cancel_left]
  calc extend owner buffer more
      = (extend owner buffer more).take buffer.length ++
          (extend owner buffer more).drop buffer.length := (List.take_append_drop _ _).symm
    _ = buffer ++ Units.zeros more := by rw [h.extend_keeps, hrest]

/-- Buffers that are made longer by way of a new one keep the contract if new ones do. -/
theorem of_take (hlength : ∀ owner n, (take owner n).length = n)
    (hclear : ∀ owner n, ∀ u ∈ take owner n, u = 0)
    (hextend : ∀ owner buffer more,
      extend owner buffer more = buffer ++ (take owner (buffer.length + more)).drop buffer.length) :
    Lawful where
  length_take := hlength
  take_clear := hclear
  length_extend owner buffer more := by
    rw [hextend, List.length_append, List.length_drop, hlength, Nat.add_sub_cancel_left]
  extend_keeps owner buffer more := by rw [hextend, List.take_left]
  extend_clear owner buffer more u hu := by
    rw [hextend, List.drop_left] at hu
    exact hclear owner _ u (List.mem_of_mem_drop hu)

end Lawful

/-- The contract leaves no choice. -/
theorem Lawful.eq_zeroing {a : Supply} (h : @Lawful a) : a = zeroing := by
  refine Supply.ext (funext₂ h.take_eq) ?_
  funext owner buffer more
  rw [h.extend_eq, extend_zeroing]

theorem zeroing_lawful : @Lawful zeroing :=
  .of_take (fun _ => Units.length_zeros) (fun _ _ _ hu => List.eq_of_mem_replicate hu)
    fun _ _ _ => rfl

end CryptoPrimitives.Supply
