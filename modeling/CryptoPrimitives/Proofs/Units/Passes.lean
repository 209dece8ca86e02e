import CryptoPrimitives.Proofs.Units.Prefix
import CryptoPrimitives.Proofs.Units.Walks

/-!
# Walks and recursions

The recursions over limbs that the operations are defined by are walks: each takes one limb after
the other and carries on. Some look at the limb that they replace, some at what is read for it, the
sums and differences at a pair.
-/

set_option autoImplicit false

namespace CryptoPrimitives.Units.InPlace

variable {α γ : Type}

/-! ## What is read -/

/-- A walk that does not look at what it replaces is a recursion over what it reads. -/
theorem pass_given {g : α → γ → Limb × γ} {f : List α → γ → Units × γ}
    (hnil : ∀ c, f [] c = ([], c))
    (hcons : ∀ a as c, f (a :: as) c = ((g a c).1 :: (f as (g a c).2).1, (f as (g a c).2).2))
    (held : Units) (given : List α) (c : γ) (h : held.length = given.length) :
    pass (fun _ => g) held given c = f given c := by
  induction given generalizing held c with
  | nil => cases held <;> simp [pass, hnil]
  | cons a as ih =>
    cases held with
    | nil => simp at h
    | cons u us => rw [hcons, ← ih us _ (by simpa using h), pass]

/-- What is read in pairs may as well be held and read. -/
theorem pass_pair (g : Limb → Limb → γ → Limb × γ) (held s t : Units) (c : γ)
    (h : held.length = (s.zip t).length) :
    pass (fun _ given c => g given.1 given.2 c) held (s.zip t) c = pass g s t c := by
  induction held generalizing s t c with
  | nil => cases s <;> cases t <;> simp_all [pass]
  | cons u us ih =>
    cases s with
    | nil => simp at h
    | cons v vs =>
      cases t with
      | nil => simp at h
      | cons w ws => simp only [List.zip_cons_cons, pass, ih vs ws _ (by simpa using h)]

theorem pass_set (held s : Units) (h : held.length = s.length) :
    pass (fun _ u (_ : Unit) => (u, ())) held s () = (s, ()) :=
  pass_given (f := fun us c => (us, c)) (fun _ => rfl) (fun _ _ _ => rfl) held s () h

theorem pass_zero (held : Units) (given : List Unit) (h : held.length = given.length) :
    pass (fun _ (_ : Unit) (_ : Unit) => (0, ())) held given () = (zeros given.length, ()) :=
  pass_given (f := fun us c => (zeros us.length, c)) (fun _ => rfl) (fun _ _ _ => rfl) held given
    () h

section Limbs

variable [Rendition]

theorem pass_addLimb (held s : Units) (v : Limb) (h : held.length = s.length) :
    pass (fun _ u carry => Limb.adc u carry 0) held s v = Units.addLimb s v :=
  pass_given (f := Units.addLimb) (fun _ => rfl) (fun _ _ _ => rfl) held s v h

theorem pass_subLimb (held s : Units) (v : Limb) (h : held.length = s.length) :
    pass (fun _ u borrow => Limb.sbb u borrow 0) held s v = Units.subLimb s v :=
  pass_given (f := Units.subLimb) (fun _ => rfl) (fun _ _ _ => rfl) held s v h

theorem pass_mulCarry (held s : Units) (v carry : Limb) (h : held.length = s.length) :
    pass (fun _ u carry => Limb.mac u v 0 carry) held s carry = mulCarry s v carry :=
  pass_given (f := fun us carry => mulCarry us v carry) (fun _ => rfl) (fun _ _ _ => rfl) held s
    carry h

end Limbs

/-! ## What is held -/

theorem pass_assignIf (choice : Bool) (r s : Units) :
    pass (fun held u (_ : Unit) => (Limb.choose choice held u, ())) r s () =
      (Units.assignIf choice r s, ()) := by
  induction r generalizing s with
  | nil => rfl
  | cons u us ih =>
    cases s with
    | nil => rfl
    | cons v vs => simp only [pass, ih, Units.assignIf, List.zipWith_cons_cons]

theorem pass_shiftLeft (k : Limb) (us : Units) (given : List Unit) (carry : Limb)
    (h : us.length = given.length) :
    pass (fun u _ carry => ((u <<< k) ||| carry, u >>> (64 - k))) us given carry =
      shiftLeftFrom k carry us := by
  induction us generalizing given carry with
  | nil => rfl
  | cons u us ih =>
    cases given with
    | nil => simp at h
    | cons _ as => simp only [pass, ih as _ (by simpa using h), shiftLeftFrom]

theorem passDown_shiftRight (k : Limb) (us : Units) (given : List Unit)
    (h : us.length = given.length) :
    passDown (fun u _ carry => ((u >>> k) ||| carry, u <<< (64 - k))) us given 0 =
      shiftRightFrom k us := by
  induction us generalizing given with
  | nil => rfl
  | cons u us ih =>
    cases given with
    | nil => simp at h
    | cons _ as => simp only [passDown, ih as (by simpa using h), shiftRightFrom]

theorem passDown_divLimb (d : Limb) (held s : Units) (h : held.length = s.length) :
    passDown (fun _ u rem => Limb.divDouble rem u d) held s 0 = Units.divLimb s d := by
  induction held generalizing s with
  | nil =>
    cases s with
    | nil => rfl
    | cons _ _ => simp at h
  | cons _ us ih =>
    cases s with
    | nil => simp at h
    | cons v vs => simp only [passDown, ih vs (by simpa using h), Units.divLimb]

section Arithmetic

variable [Rendition]

theorem pass_addCarry (s t : Units) (carry : Limb) :
    pass Limb.adc s t carry = addCarry s t carry := by
  induction s generalizing t carry with
  | nil => rfl
  | cons u us ih =>
    cases t with
    | nil => rfl
    | cons v vs => simp only [pass, addCarry, ih]

theorem pass_subBorrow (s t : Units) (borrow : Limb) :
    pass Limb.sbb s t borrow = subBorrow s t borrow := by
  induction s generalizing t borrow with
  | nil => rfl
  | cons u us ih =>
    cases t with
    | nil => rfl
    | cons v vs => simp only [pass, subBorrow, ih]

theorem pass_addMulCarry (r s : Units) (v carry : Limb) :
    pass (fun held u carry => Limb.mac u v held carry) r s carry = addMulCarry r s v carry := by
  induction r generalizing s carry with
  | nil => rfl
  | cons u us ih =>
    cases s with
    | nil => rfl
    | cons w ws => simp only [pass, addMulCarry, ih]

end Arithmetic

/-! ## What is gathered -/

theorem gather_compare (i : Nat) (s t : Units) (verdict : Ordering) :
    gather settle i (s.zip t) verdict = compareFrom verdict s t := by
  induction s generalizing t i verdict with
  | nil => rfl
  | cons u us ih =>
    cases t with
    | nil => rfl
    | cons v vs => simp only [List.zip_cons_cons, gather, settle, compareFrom, ih]

/-- Only the common length is looked at. -/
theorem compare_front (s t : Units) (n : Nat) (h : s.length ≤ n ∨ t.length ≤ n) :
    Units.compare (s.take n) (t.take n) = Units.compare s t := by
  suffices hfrom : ∀ verdict,
      compareFrom verdict (s.take n) (t.take n) = compareFrom verdict s t from hfrom .eq
  induction s generalizing t n with
  | nil => simp [compareFrom]
  | cons u us ih =>
    intro verdict
    cases t with
    | nil => simp [compareFrom]
    | cons v vs =>
      cases n with
      | zero => simp at h
      | succ n => simpa [compareFrom] using ih vs n (by simpa using h) _

theorem gather_or (i : Nat) (s : Units) (acc : Limb) :
    gather (fun _ u all => all ||| u) i s acc = s.foldl (· ||| ·) acc := by
  induction s generalizing i acc with
  | nil => rfl
  | cons u us ih => simp only [gather, List.foldl_cons, ih]

theorem gather_significant (i : Nat) (s : Units) (count : Nat) :
    gather countTo i s count = significantFrom i count s := by
  induction s generalizing i count with
  | nil => rfl
  | cons u us ih => simp only [gather, countTo, significantFrom, ih]

theorem gather_bitLength (i : Nat) (s : Units) (bits : Nat) :
    gather bitsTo i s bits = bitLengthFrom i bits s := by
  induction s generalizing i bits with
  | nil => rfl
  | cons u us ih => simp only [gather, bitsTo, bitLengthFrom, ih]

end CryptoPrimitives.Units.InPlace
