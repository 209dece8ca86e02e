import CryptoPrimitives.Proofs.Residue.Montgomery
import CryptoPrimitives.Proofs.Units.MontgomeryRounds

/-!
# Products of residues

Any two operands that fit the modulus's width are multiplied without losing a carry, and their
product is reduced if one of them was. So residues keep their form under products, and the way into
the form and back is reduction.
-/

set_option autoImplicit false

namespace CryptoPrimitives.MontgomeryContext

open BigInt (Canonical Represents)

section Products

variable [Rendition] {c : MontgomeryContext}

structure Multiplied (c : MontgomeryContext) (a b : BigInt) : Prop where
  rounds : ∀ before limb after, c.padded b = before ++ limb :: after →
    Units.RoundKept c.modulus.units (c.padded a) c.nPrime before limb
  result : ∃ r, ∃ v : Nat, c.mul a b = .ok r ∧ Represents r.val (v : Int) ∧
    v * c.radix ≡ a.magnitude * b.magnitude [MOD c.modulus.magnitude] ∧
    (a.magnitude < c.modulus.magnitude ∨ b.magnitude < c.modulus.magnitude →
      v < c.modulus.magnitude)

structure Encodes (c : MontgomeryContext) : Prop where
  encode : ∀ x, ∃ r, (c.toMontgomery x).outcome = .ok r ∧ Represents r (c.encoded x.toInt)
  multiply : ∀ a b x y, Represents a (c.encoded x) → Represents b (c.encoded y) →
    ∃ r, c.mul a b = .ok r ∧ Represents r.val (c.encoded (x * y))
  decode : ∀ a x, Represents a (c.encoded x) →
    ∃ r, c.fromMontgomery a = .ok r ∧ Represents r.val (x % c.modulus.toInt)
  round_trip : ∀ x, ∃ r y, (c.toMontgomery x).outcome = .ok r ∧ c.fromMontgomery r = .ok y ∧
    Represents y.val (x.toInt % c.modulus.toInt)

omit [Rendition] in
theorem fits_ok {x : BigInt} (hfit : x.size ≤ c.size) : c.fits x = .ok () :=
  if_pos (decide_eq_true hfit)

theorem mul_fitting {a b : BigInt} (hfa : a.size ≤ c.size) (hfb : b.size ≤ c.size) :
    c.mul a b = .ok (c.mulFitting a b) := by
  rw [mul, fits_ok hfa, fits_ok hfb]
  rfl

omit [Rendition] in
theorem Form.val_encoded (h : Valid c) {us : Units} {y : Nat} {x : Int} (hf : Form c us y)
    (hy : y ≡ c.residue x [MOD c.modulus.magnitude]) : (Units.val us : Int) = c.encoded x := by
  have hval : Units.val us ≡ c.residue x * c.radix [MOD c.modulus.magnitude] :=
    hf.value.trans (hy.mul_right _)
  rw [encoded_eq h, ← hval, Nat.mod_eq_of_lt hf.below]

omit [Rendition] in
theorem residue_mul (h : Valid c) (x y : Int) :
    c.residue x * c.residue y ≡ c.residue (x * y) [MOD c.modulus.magnitude] := by
  have hcast := (residue_mul_cast h x y).trans (residue_cast h (x * y)).symm
  have hmod : c.residue x * c.residue y % c.modulus.magnitude = c.residue (x * y) := by
    exact_mod_cast hcast
  rw [← hmod]
  exact (Nat.mod_modEq _ _).symm

namespace Valid

theorem multiplied (h : Valid c) {a b : BigInt} (ha : Canonical a) (hb : Canonical b)
    (hfa : a.size ≤ c.size) (hfb : b.size ≤ c.size) : Multiplied c a b := by
  refine ⟨fun before limb _ _ => ?_, ?_⟩
  · have hlen : (c.padded a).length = c.modulus.units.length :=
      (padded_length c ha hfa).trans h.length_modulus.symm
    exact Units.round_kept h.clears h.modulus_ne_nil h.modulus_pos hlen before limb
  · obtain ⟨v, hr, hv, hbelow⟩ := mulFitting_product h ha hb hfa hfb
    exact ⟨_, v, mul_fitting hfa hfb, hr, hv, hbelow⟩

omit [Rendition] in
theorem encoded_below (h : Valid c) {a : BigInt} {x : Int} (ha : Represents a (c.encoded x)) :
    a.magnitude < c.modulus.magnitude := by
  have hbelow := (encoded_form h ha).below
  rwa [padded_value] at hbelow

omit [Rendition] in
theorem encoded_fits (h : Valid c) {a : BigInt} {x : Int} (ha : Represents a (c.encoded x)) :
    a.size ≤ c.size :=
  h.size_of_below ha.canonical (h.encoded_below ha)

theorem multiply (h : Valid c) {a b : BigInt} {x y : Int} (ha : Represents a (c.encoded x))
    (hb : Represents b (c.encoded y)) :
    ∃ r, c.mul a b = .ok r ∧ Represents r.val (c.encoded (x * y)) := by
  have hform := mulUnits_form h (encoded_form h ha) (encoded_form h hb)
  have hw := BigInt.write_written (BigInt.empty_canonical c.modulus.alloc)
    (c.mulUnits (c.padded a) (c.padded b))
  refine ⟨_, mul_fitting (h.encoded_fits ha) (h.encoded_fits hb), hw.canonical, ?_⟩
  exact hw.toInt_eq.trans (hform.val_encoded h (residue_mul h x y))

theorem decode (h : Valid c) {a : BigInt} {x : Int} (ha : Represents a (c.encoded x)) :
    ∃ r, c.fromMontgomery a = .ok r ∧ Represents r.val (x % c.modulus.toInt) := by
  have hform := (encoded_form h ha).value
  rw [padded_value] at hform
  have hr := divR_represents h ha.canonical (h.encoded_below ha) hform
  rw [Int.natCast_mod, residue_cast h, ← h.modulus_toInt, Int.emod_emod] at hr
  refine ⟨c.divR a, ?_, hr⟩
  rw [fromMontgomery, fits_ok (h.encoded_fits ha)]
  rfl

theorem encodes (h : Valid c) : Encodes c := by
  refine ⟨fun x => toMontgomery_outcome h, fun a b x y => h.multiply, fun a x => h.decode, ?_⟩
  intro x
  obtain ⟨r, hok, hr⟩ := toMontgomery_outcome h (x := x)
  obtain ⟨y, hfrom, hy⟩ := h.decode hr
  exact ⟨r, y, hok, hfrom, hy⟩

end Valid

/-- Over an odd modulus `N`, whatever fits its width is multiplied with every carry kept, to a
number congruent to the product divided by `R` that is below `N` if an operand is. So encoded
residues are multiplied as residues, and an integer encoded and decoded is its remainder. -/
theorem montgomery_product (m : BigInt) (hm : Canonical m) (hodd : m.toInt % 2 = 1) :
    ∃ c, (create m).outcome = .ok c ∧ Represents c.modulus |m.toInt| ∧ c.size = c.modulus.size ∧
      Nat.Coprime c.radix c.modulus.magnitude ∧
      (∀ a b, Canonical a → Canonical b → a.size ≤ c.size → b.size ≤ c.size →
        Multiplied c a b) ∧
      Encodes c := by
  have hmag : m.magnitude % 2 = 1 := by
    rw [← BigInt.toInt_natAbs]
    omega
  obtain ⟨c, hok, hvalid, habs⟩ := create_valid hm hmag
  exact ⟨c, hok, ⟨hvalid.canonical, habs⟩, hvalid.size_eq, Nat.Coprime.symm hvalid.radix_coprime,
    fun a b ha hb hfa hfb => hvalid.multiplied ha hb hfa hfb, hvalid.encodes⟩

end Products

/-- Modulo 97 the square of the largest limb is taken as it is, and 42 comes back. -/
theorem montgomery_product_97 :
    ∃ c, (create (BigInt.ofLimb 97).val).outcome = .ok c ∧ c.modulus.toInt = 97 ∧
      (∃ r, ∃ v : Nat, c.mul (BigInt.ofLimb 0xffffffffffffffff).val
          (BigInt.ofLimb 0xffffffffffffffff).val = .ok r ∧ Represents r.val (v : Int) ∧
        v * 2 ^ 64 ≡ (2 ^ 64 - 1) * (2 ^ 64 - 1) [MOD 97]) ∧
      ∃ r y, (c.toMontgomery (BigInt.ofLimb 42).val).outcome = .ok r ∧
        c.fromMontgomery r = .ok y ∧ Represents y.val 42 := by
  have hm := BigInt.ofLimb_represents 97
  have hlast := BigInt.ofLimb_represents 0xffffffffffffffff
  obtain ⟨c, hok, hmodulus, hsize, -, hmul, hencodes⟩ :=
    montgomery_product (BigInt.ofLimb 97).val hm.canonical (by rw [hm.toInt_eq]; decide)
  have hmod : c.modulus.toInt = 97 := by
    rw [hmodulus.toInt_eq, hm.toInt_eq]
    rfl
  have hmag : c.modulus.magnitude = 97 := by
    rw [← BigInt.toInt_natAbs, hmod]
    rfl
  refine ⟨c, hok, hmod, ?square, ?back⟩
  case square =>
    have hone : c.size = 1 := by
      have hfits := (hmodulus.canonical.size_le_iff 1).mpr (by rw [hmag]; decide)
      have hzero := hmodulus.canonical.size_eq_zero_iff
      omega
    have hfit : (BigInt.ofLimb 0xffffffffffffffff).val.size ≤ c.size := by
      rw [hone, hlast.canonical.size_le_iff, hlast.magnitude_eq]
      decide
    obtain ⟨r, v, hr, hrep, hval, -⟩ :=
      (hmul _ _ hlast.canonical hlast.canonical hfit hfit).result
    rw [hlast.magnitude_eq, hmag, radix, hone] at hval
    exact ⟨r, v, hr, hrep, hval⟩
  case back =>
    obtain ⟨r, y, hto, hfrom, hy⟩ := hencodes.round_trip (BigInt.ofLimb 42).val
    rw [(BigInt.ofLimb_represents 42).toInt_eq, hmod] at hy
    exact ⟨r, y, hto, hfrom, hy⟩

end CryptoPrimitives.MontgomeryContext
