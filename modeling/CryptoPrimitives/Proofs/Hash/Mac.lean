import CryptoPrimitives.Hash.Hmac

/-!
# The code as a function of key and message

Only the concatenation of the parts matters, the code has the length of the digest, and a buffer of
that length is never refused.
-/

set_option autoImplicit false

namespace CryptoPrimitives

variable {H : HashFunction}

namespace Digest

theorem finish_fits (d : Digest H) (out : Bytes) (hout : H.outputSize ≤ out.length) :
    d.finish out = ⟨.ok (), Bytes.overlay (H.hash d.fed) out, d.reset⟩ :=
  if_neg (Nat.not_lt.mpr hout)

theorem length_finish (d : Digest H) (out : Bytes) : (d.finish out).out.length = out.length := by
  by_cases hout : H.outputSize ≤ out.length
  · rw [d.finish_fits out hout]
    exact Bytes.length_overlay _ _
  · rw [finish, if_pos (Nat.lt_of_not_le hout)]

end Digest

namespace Hmac

theorem update_append (h : Hmac H) (a b : Bytes) : (h.update a).update b = h.update (a ++ b) := by
  simp only [update, Digest.update, List.append_assoc]

theorem foldl_update (h : Hmac H) (parts : List Bytes) :
    parts.foldl update h = h.update parts.flatten := by
  induction parts generalizing h with
  | nil => simp [update, Digest.update]
  | cons part parts ih => rw [List.foldl_cons, ih, update_append, List.flatten_cons]

theorem writeMac_flatten (H : HashFunction) (key : Bytes) (parts : List Bytes) (out : Bytes) :
    writeMac H key parts out = writeMac H key [parts.flatten] out := by
  simp only [writeMac, foldl_update, List.flatten_singleton]

theorem macParts_flatten (H : HashFunction) (key : Bytes) (parts : List Bytes) :
    macParts H key parts = mac H key parts.flatten := by
  rw [mac, macParts, macParts, writeMac_flatten]

theorem length_finish (h : Hmac H) (out : Bytes) : (h.finish out).out.length = out.length := by
  unfold finish
  dsimp only
  split
  · rfl
  · split <;> exact Digest.length_finish _ _

theorem length_mac (H : HashFunction) (key message : Bytes) :
    (mac H key message).length = H.outputSize :=
  (length_finish _ _).trans (Bytes.length_zeros _)

/-- The inner digest always has room; only the caller's buffer can be too short. -/
theorem finish_outcome (h : Hmac H) (out : Bytes) (hout : H.outputSize ≤ out.length) :
    (h.finish out).outcome = .ok () := by
  have hroom : H.outputSize ≤ (Bytes.zeros h.outputSize).length :=
    Nat.le_of_eq (Bytes.length_zeros _).symm
  simp only [finish, Digest.finish_fits _ _ hroom, Digest.finish_fits _ _ hout]

theorem writeMac_accepted (H : HashFunction) (key : Bytes) (parts : List Bytes) (out : Bytes)
    (hout : H.outputSize ≤ out.length) : (writeMac H key parts out).1 = .ok () := by
  rw [writeMac, foldl_update]
  exact finish_outcome _ _ hout

end Hmac

end CryptoPrimitives
