import CryptoPrimitives.Proofs.BigInt.Division
import CryptoPrimitives.Proofs.BigInt.Shift
import CryptoPrimitives.Proofs.Units.Montgomery
import CryptoPrimitives.Residue.Montgomery
import Mathlib.Data.Nat.Prime.Basic

/-!
# Residues in Montgomery form

`Form c us y` says that limbs stand for `y * R` reduced. Products of forms are forms of products,
the table holds the forms of the powers, and the window loop keeps the form of the power to the part
of the exponent read so far.
-/

set_option autoImplicit false

namespace CryptoPrimitives.MontgomeryContext

open BigInt (Canonical Represents)

/-! ## Contexts -/

def radix (c : MontgomeryContext) : Nat := 2 ^ (64 * c.size)

structure Valid (c : MontgomeryContext) : Prop where
  canonical : Canonical c.modulus
  positive : c.modulus.negative = false
  odd : c.modulus.magnitude % 2 = 1
  size_eq : c.size = c.modulus.size
  clears : Units.Clears c.modulus.units c.nPrime
  rSquared : Represents c.rSquared ((c.radix * c.radix % c.modulus.magnitude : Nat) : Int)

structure Form (c : MontgomeryContext) (us : Units) (y : Nat) : Prop where
  length_eq : us.length = c.size
  below : Units.val us < c.modulus.magnitude
  value : Units.val us ≡ y * c.radix [MOD c.modulus.magnitude]

namespace Valid

variable {c : MontgomeryContext}

theorem modulus_pos (h : Valid c) : 0 < c.modulus.magnitude := by
  have hodd := h.odd
  omega

theorem length_modulus (h : Valid c) : c.modulus.units.length = c.size := by
  rw [h.canonical.length_units, h.size_eq]

theorem modulus_ne_nil (h : Valid c) : c.modulus.units ≠ [] := by
  intro h0
  have hpos := h.modulus_pos
  rw [BigInt.magnitude, h0] at hpos
  exact absurd hpos (by decide)

theorem modulus_toInt (h : Valid c) : c.modulus.toInt = c.modulus.magnitude := by
  rw [BigInt.toInt_eq, h.positive]
  rfl

theorem modulus_lt (h : Valid c) : c.modulus.magnitude < c.radix := by
  rw [radix, h.size_eq, ← h.canonical.size_le_iff]

theorem radix_coprime (h : Valid c) : Nat.gcd c.modulus.magnitude c.radix = 1 := by
  have hodd : Odd c.modulus.magnitude := Nat.odd_iff.mpr h.odd
  exact Nat.Coprime.pow_right _ (Nat.coprime_two_right.mpr hodd)

/-- The factor `R` can be cancelled. -/
theorem cancel (h : Valid c) {x y : Nat}
    (hxy : x * c.radix ≡ y * c.radix [MOD c.modulus.magnitude]) :
    x ≡ y [MOD c.modulus.magnitude] :=
  Nat.ModEq.cancel_right_of_coprime h.radix_coprime hxy

theorem size_of_below (h : Valid c) {x : BigInt} (hx : Canonical x)
    (hlt : x.magnitude < c.modulus.magnitude) : x.size ≤ c.size := by
  rw [hx.size_le_iff]
  exact hlt.trans h.modulus_lt

end Valid

def Table (c : MontgomeryContext) (table : List Units) (g : Nat) : Prop :=
  ∀ i < table.length, Form c (table.getD i []) (g ^ i)

theorem Table.length_eq {c : MontgomeryContext} {table : List Units} {g : Nat}
    (ht : Table c table g) :
    ∀ e ∈ table, e.length = c.size := by
  intro e he
  obtain ⟨i, hi, rfl⟩ := List.mem_iff_getElem.mp he
  have hf := (ht i hi).length_eq
  simpa [List.getD_eq_getElem?_getD, hi] using hf

theorem clears_odd (us : Units) (h : Units.val us % 2 = 1) :
    Units.Clears us (Limb.negInverse (us.headD 0)) := by
  apply Limb.negInverse_value
  have hne : us ≠ [] := by
    intro h0
    rw [h0, Units.val_nil] at h
    exact absurd h (by decide)
  rw [Units.head_value us hne] at h
  omega

/-! ## Operands -/

theorem padded_length (c : MontgomeryContext) {x : BigInt} (hx : Canonical x)
    (hfit : x.size ≤ c.size) :
    (c.padded x).length = c.size :=
  Units.length_padTo _ _ (by rwa [hx.length_units])

theorem padded_value (c : MontgomeryContext) (x : BigInt) :
    Units.val (c.padded x) = x.magnitude :=
  Units.val_padTo _ _

def residue (c : MontgomeryContext) (x : Int) : Nat := (x % c.modulus.toInt).toNat

theorem residue_cast {c : MontgomeryContext} (h : Valid c) (x : Int) :
    (c.residue x : Int) = x % c.modulus.toInt := by
  have hpos := h.modulus_pos
  rw [residue, h.modulus_toInt]
  exact Int.toNat_of_nonneg (Int.emod_nonneg _ (by omega))

theorem residue_lt {c : MontgomeryContext} (h : Valid c) (x : Int) :
    c.residue x < c.modulus.magnitude := by
  have hpos := h.modulus_pos
  have hlt := Int.emod_lt_of_pos x (show (0 : Int) < c.modulus.magnitude by omega)
  have hcast := residue_cast h x
  rw [h.modulus_toInt] at hcast
  omega

theorem residue_mul_cast {c : MontgomeryContext} (h : Valid c) (x y : Int) :
    ((c.residue x * c.residue y % c.modulus.magnitude : Nat) : Int) =
      x * y % c.modulus.toInt := by
  rw [Int.natCast_mod, Nat.cast_mul, residue_cast h, residue_cast h, ← h.modulus_toInt,
    ← Int.mul_emod]

theorem residue_pow_cast {c : MontgomeryContext} (h : Valid c) (x : Int) (k : Nat) :
    ((c.residue x ^ k % c.modulus.magnitude : Nat) : Int) = x ^ k % c.modulus.toInt := by
  rw [Int.natCast_mod, Nat.cast_pow, residue_cast h, ← h.modulus_toInt]
  exact (Int.mod_modEq x c.modulus.toInt).pow k

def encoded (c : MontgomeryContext) (x : Int) : Int := x * c.radix % c.modulus.toInt

theorem encoded_eq {c : MontgomeryContext} (h : Valid c) (x : Int) :
    c.encoded x = ((c.residue x * c.radix % c.modulus.magnitude : Nat) : Int) := by
  rw [Int.natCast_mod, Nat.cast_mul, residue_cast h, ← h.modulus_toInt]
  exact ((Int.mod_modEq x c.modulus.toInt).mul_right (c.radix : Int)).symm

theorem encoded_form {c : MontgomeryContext} (h : Valid c) {r : BigInt} {x : Int}
    (hr : Represents r (c.encoded x)) : Form c (c.padded r) (c.residue x) := by
  rw [encoded_eq h] at hr
  have hlt := Nat.mod_lt (c.residue x * c.radix) h.modulus_pos
  have hbelow : r.magnitude < c.modulus.magnitude := by rwa [hr.magnitude_eq]
  refine ⟨padded_length c hr.canonical (h.size_of_below hr.canonical hbelow), ?_, ?_⟩
  · rwa [padded_value]
  · rw [padded_value, hr.magnitude_eq]
    exact Nat.mod_modEq _ _

/-! ## Windows of the exponent -/

theorem bits_value (x : BigInt) (start count : Nat) :
    (List.range count).foldl (fun acc b => acc ||| (x.bitAt (start + b)).toNat <<< b) 0 =
      x.magnitude / 2 ^ start % 2 ^ count := by
  induction count with
  | zero => simp [Nat.mod_one]
  | succ count ih =>
    have hlt := Nat.mod_lt (x.magnitude / 2 ^ start) (Nat.two_pow_pos count)
    rw [List.range_succ, List.foldl_append, List.foldl_cons, List.foldl_nil, ih,
      BigInt.bitAt_value, Nat.shiftLeft_eq, Nat.or_comm, Nat.mul_comm,
      ← Nat.two_pow_add_eq_or_of_lt hlt, pow_add, ← Nat.div_div_eq_div_mul, pow_succ, Nat.mod_mul]
    omega

theorem windowValue_eq (x : BigInt) (width index : Nat) :
    windowValue x width index = x.magnitude / 2 ^ (index * width) % 2 ^ width :=
  bits_value x (index * width) width

theorem windowSize_pos (bits : Nat) : 0 < windowSize bits := by
  unfold windowSize
  split_ifs <;> decide

/-- A window below the part of the exponent already read. -/
theorem window_join (e width windows : Nat) :
    e / 2 ^ (width * (windows + 1)) * 2 ^ width + e / 2 ^ (windows * width) % 2 ^ width =
      e / 2 ^ (width * windows) := by
  rw [Nat.mul_comm windows width, Nat.mul_succ, pow_add, ← Nat.div_div_eq_div_mul,
    Nat.div_add_mod']

/-- The windows cover the exponent. -/
theorem windows_cover (x : BigInt) (width : Nat) (hw : 0 < width) :
    x.magnitude / 2 ^ (width * ceilDiv x.bitLength width) = 0 := by
  have hsize := Nat.lt_size_self x.magnitude
  have hdiv := Nat.div_add_mod (x.magnitude.size + width - 1) width
  have hmod := Nat.mod_lt (x.magnitude.size + width - 1) hw
  apply Nat.div_eq_of_lt
  rw [BigInt.bitLength_eq]
  apply hsize.trans_le
  apply Nat.pow_le_pow_right (by decide)
  unfold ceilDiv
  omega

section Products

variable [Rendition] {c : MontgomeryContext}

theorem mulUnits_value (h : Valid c) (a b : Units) (ha : a.length = c.size)
    (hb : b.length = c.size) :
    (c.mulUnits a b).length = c.size ∧
      Units.val (c.mulUnits a b) * c.radix ≡
        Units.val a * Units.val b [MOD c.modulus.magnitude] ∧
      (Units.val a < c.modulus.magnitude ∨ Units.val b < c.modulus.magnitude →
        Units.val (c.mulUnits a b) < c.modulus.magnitude) := by
  have hv := Units.montgomeryMul_value c.modulus.units a b c.nPrime h.clears h.modulus_ne_nil
    (ha.trans h.length_modulus.symm) (hb.trans h.length_modulus.symm) h.modulus_pos
  rwa [h.length_modulus] at hv

theorem mulUnits_form (h : Valid c) {a b : Units} {y z : Nat} (ha : Form c a y)
    (hb : Form c b z) : Form c (c.mulUnits a b) (y * z) := by
  obtain ⟨hl, hv, hlt⟩ := mulUnits_value h a b ha.length_eq hb.length_eq
  refine ⟨hl, hlt (.inl ha.below), h.cancel ?_⟩
  calc Units.val (c.mulUnits a b) * c.radix
      ≡ Units.val a * Units.val b [MOD c.modulus.magnitude] := hv
    _ ≡ y * c.radix * (z * c.radix) [MOD c.modulus.magnitude] := ha.value.mul hb.value
    _ = y * z * c.radix * c.radix := by ring

theorem squarings_form (h : Valid c) (count : Nat) {acc : Units} {y : Nat}
    (ha : Form c acc y) : Form c (c.squarings count acc) (y ^ 2 ^ count) := by
  induction count generalizing acc y with
  | zero => simpa [squarings] using ha
  | succ count ih =>
    have hs := ih (mulUnits_form h ha ha)
    rw [squarings, pow_succ', pow_mul, pow_two]
    exact hs

/-! ## The table -/

theorem powers_length (c : MontgomeryContext) (b : Units) (count : Nat) (last : Units) :
    (c.powers b count last).length = count := by
  induction count generalizing last with
  | zero => rfl
  | succ count ih => simp [powers, ih]

theorem powers_form (h : Valid c) {b : Units} {g : Nat} (hb : Form c b g) (count k : Nat)
    {last : Units} (hl : Form c last (g ^ k)) :
    ∀ i < count, Form c ((c.powers b count last).getD i []) (g ^ (k + 1 + i)) := by
  induction count generalizing k last with
  | zero =>
    intro i hi
    omega
  | succ count ih =>
    intro i hi
    have hnext := mulUnits_form h hl hb
    rw [← pow_succ] at hnext
    cases i with
    | zero => simpa [powers] using hnext
    | succ i =>
      have hrest := ih (k + 1) hnext i (by omega)
      rw [powers, List.getD_cons_succ, show k + 1 + (i + 1) = k + 1 + 1 + i by omega]
      exact hrest

theorem table_form (h : Valid c) {one b : Units} {g : Nat} (h1 : Form c one 1)
    (hb : Form c b g) (count : Nat) : Table c (one :: b :: c.powers b count b) g := by
  intro i hi
  simp only [List.length_cons, powers_length] at hi
  match i with
  | 0 => simpa using h1
  | 1 => simpa using hb
  | i + 2 =>
    have hp := powers_form h hb count 1 (by simpa using hb) i (by omega)
    rw [List.getD_cons_succ, List.getD_cons_succ, show i + 2 = 1 + 1 + i by omega]
    exact hp

/-! ## The window loop -/

/-- One window: as many squarings as it has bits, and the table's entry for it. -/
theorem window_form (h : Valid c) {table : List Units} {g e width windows : Nat} {acc held : Units}
    (ht : Table c table g) (hl : table.length = 2 ^ width)
    (ha : Form c acc (g ^ (e / 2 ^ (width * (windows + 1)))))
    (hs : held = table.getD (e / 2 ^ (windows * width) % 2 ^ width) []) :
    Form c (c.mulUnits (c.squarings width acc) held) (g ^ (e / 2 ^ (width * windows))) := by
  have hsq := squarings_form h width ha
  have hentry := ht (e / 2 ^ (windows * width) % 2 ^ width)
    (by rw [hl]; exact Nat.mod_lt _ (Nat.two_pow_pos _))
  have hprod := mulUnits_form h hsq hentry
  rw [← hs, ← pow_mul, ← pow_add, window_join] at hprod
  exact hprod

theorem windowLoop_form (h : Valid c) {table : List Units} {g width : Nat} (exponent : BigInt)
    (ht : Table c table g) (hl : table.length = 2 ^ width) (windows : Nat) {acc held : Units}
    (ha : Form c acc (g ^ (exponent.magnitude / 2 ^ (width * windows))))
    (hh : held.length = c.size) :
    Form c (c.windowLoop table exponent width windows acc held) (g ^ exponent.magnitude) := by
  induction windows generalizing acc held with
  | zero => simpa [windowLoop] using ha
  | succ windows ih =>
    have hindex : windowValue exponent width windows < table.length := by
      rw [windowValue_eq, hl]
      exact Nat.mod_lt _ (Nat.two_pow_pos _)
    have hscan := Units.scanSelect_eq table (windowValue exponent width windows) c.size held
      ht.length_eq hh hindex
    rw [windowLoop]
    apply ih
    · exact window_form h ht hl ha (by rw [hscan, windowValue_eq])
    · rw [hscan]
      exact (ht _ hindex).length_eq

theorem powerUnits_form (h : Valid c) {one b : Units} {g : Nat} (exponent : BigInt)
    (h1 : Form c one 1) (hb : Form c b g) :
    Form c (c.powerUnits one b exponent) (g ^ exponent.magnitude) := by
  have hw := windowSize_pos exponent.bitLength
  simp only [powerUnits]
  generalize windowSize exponent.bitLength = width at *
  have htwo : 2 ≤ 2 ^ width := Nat.le_self_pow (by omega) 2
  apply windowLoop_form h exponent (table_form h h1 hb _)
  · simp only [List.length_cons, powers_length, Nat.shiftLeft_eq]
    omega
  · rw [windows_cover exponent width hw, pow_zero]
    exact h1
  · exact Units.length_zeros _

/-! ## Numbers -/

/-- Operands at or above the modulus are multiplied too, if they fit its width. -/
theorem mulFitting_product (h : Valid c) {a b : BigInt} (ha : Canonical a) (hb : Canonical b)
    (hfa : a.size ≤ c.size) (hfb : b.size ≤ c.size) :
    ∃ v : Nat, Represents (c.mulFitting a b).val (v : Int) ∧
      v * c.radix ≡ a.magnitude * b.magnitude [MOD c.modulus.magnitude] ∧
      (a.magnitude < c.modulus.magnitude ∨ b.magnitude < c.modulus.magnitude →
        v < c.modulus.magnitude) := by
  obtain ⟨-, hv, hbelow⟩ := mulUnits_value h (c.padded a) (c.padded b)
    (padded_length c ha hfa) (padded_length c hb hfb)
  have hw := BigInt.write_written (BigInt.empty_canonical c.modulus.alloc)
    (c.mulUnits (c.padded a) (c.padded b))
  rw [padded_value, padded_value] at hv hbelow
  exact ⟨_, ⟨hw.canonical, hw.toInt_eq⟩, hv, hbelow⟩

theorem mulFitting_value (h : Valid c) {a b : BigInt} (ha : Canonical a) (hb : Canonical b)
    (hlt : a.magnitude < c.modulus.magnitude) (hfit : b.size ≤ c.size) :
    ∃ v < c.modulus.magnitude, Represents (c.mulFitting a b).val (v : Int) ∧
      v * c.radix ≡ a.magnitude * b.magnitude [MOD c.modulus.magnitude] := by
  obtain ⟨v, hr, hv, hbelow⟩ := mulFitting_product h ha hb (h.size_of_below ha hlt) hfit
  exact ⟨v, hbelow (.inl hlt), hr, hv⟩

theorem reduce_outcome (h : Valid c) {x : BigInt} :
    ∃ r, (c.reduce x).outcome = .ok r ∧ Represents r (c.residue x.toInt) := by
  have hpos := h.modulus_pos
  obtain ⟨r, hok, hr⟩ := BigInt.emod_outcome (s := x) h.canonical (by rw [h.modulus_toInt]; omega)
  rw [← residue_cast h] at hr
  exact ⟨r, hok, hr⟩

theorem toMontgomery_outcome (h : Valid c) {x : BigInt} :
    ∃ r, (c.toMontgomery x).outcome = .ok r ∧ Represents r (c.encoded x.toInt) := by
  obtain ⟨y, hok, hy⟩ := reduce_outcome h (x := x)
  have hlt := residue_lt h x.toInt
  have hsquare : c.radix * c.radix % c.modulus.magnitude < c.modulus.magnitude :=
    Nat.mod_lt _ h.modulus_pos
  obtain ⟨v, hv, hr, hval⟩ := mulFitting_value h hy.canonical h.rSquared.canonical
    (by rwa [hy.magnitude_eq])
    (h.size_of_below h.rSquared.canonical (by rwa [h.rSquared.magnitude_eq]))
  rw [hy.magnitude_eq, h.rSquared.magnitude_eq] at hval
  have hok' : (x.emod c.modulus).outcome = .ok y := hok
  refine ⟨(c.mulFitting y c.rSquared).val, ?_, ?_⟩
  · unfold toMontgomery
    rw [Attempt.outcome_bind_ok _ hok']
    rfl
  · have hform : v ≡ c.residue x.toInt * c.radix [MOD c.modulus.magnitude] := by
      apply h.cancel
      calc v * c.radix ≡ c.residue x.toInt * (c.radix * c.radix % c.modulus.magnitude)
            [MOD c.modulus.magnitude] := hval
        _ ≡ c.residue x.toInt * (c.radix * c.radix) [MOD c.modulus.magnitude] :=
          (Nat.mod_modEq _ _).mul_left _
        _ = c.residue x.toInt * c.radix * c.radix := by ring
    rw [encoded_eq h, ← hform, Nat.mod_eq_of_lt hv]
    exact hr

theorem divR_represents (h : Valid c) {x : BigInt} {y : Nat} (hx : Canonical x)
    (hlt : x.magnitude < c.modulus.magnitude)
    (hval : x.magnitude ≡ y * c.radix [MOD c.modulus.magnitude]) :
    Represents (c.divR x).val ((y % c.modulus.magnitude : Nat) : Int) := by
  have hone := BigInt.ofLimb_represents 1
  have hfit : (BigInt.ofLimb 1).val.size ≤ c.size := by
    rw [hone.canonical.size_le_iff, hone.magnitude_eq]
    have hpos := h.modulus_pos
    have hmod := h.modulus_lt
    rw [radix] at hmod
    exact Nat.lt_of_le_of_lt hpos hmod
  obtain ⟨v, hv, hr, hmul⟩ := mulFitting_value h hx hone.canonical hlt hfit
  rw [hone.magnitude_eq, UInt64.toNat_one, Nat.mul_one] at hmul
  have hy : y % c.modulus.magnitude = v := by
    have hcong : v ≡ y [MOD c.modulus.magnitude] := h.cancel (hmul.trans hval)
    rw [← hcong, Nat.mod_eq_of_lt hv]
  rw [hy]
  exact hr

theorem pow_outcome (h : Valid c) {b exponent : BigInt} (hsign : exponent.negative = false) :
    ∃ r, (c.pow b exponent).outcome = .ok r ∧
      Represents r (b.toInt ^ exponent.magnitude % c.modulus.toInt) := by
  have hone := BigInt.ofLimb_represents 1
  obtain ⟨oneForm, hok1, hr1⟩ := toMontgomery_outcome h (x := (BigInt.ofLimb 1).val)
  obtain ⟨baseForm, hokb, hrb⟩ := toMontgomery_outcome h (x := b)
  have hf1 := encoded_form h hr1
  have hfb := encoded_form h hrb
  have hfone : Form c (c.padded oneForm) 1 := by
    refine ⟨hf1.length_eq, hf1.below, hf1.value.trans ?_⟩
    have hres : c.residue (BigInt.ofLimb 1).val.toInt ≡ 1 [MOD c.modulus.magnitude] := by
      rw [← Int.natCast_modEq_iff, residue_cast h, hone.toInt_eq, h.modulus_toInt]
      exact Int.mod_modEq _ _
    exact hres.mul_right _
  have hpower := powerUnits_form h exponent hfone hfb
  have hw := BigInt.write_written (BigInt.empty_canonical c.modulus.alloc)
    (c.powerUnits (c.padded oneForm) (c.padded baseForm) exponent)
  have hr := divR_represents h hw.canonical (by rw [hw.magnitude_eq]; exact hpower.below)
    (by rw [hw.magnitude_eq]; exact hpower.value)
  rw [residue_pow_cast h] at hr
  refine ⟨_, ?_, hr⟩
  unfold pow
  rw [if_neg (by simp [hsign]), Attempt.outcome_bind_ok _ (Attempt.outcome_lift _),
    Attempt.outcome_bind_ok _ hok1, Attempt.outcome_bind_ok _ (Attempt.outcome_lift _),
    Attempt.outcome_bind_ok _ hokb]
  rfl

theorem pow_negative {b exponent : BigInt} (hsign : exponent.negative = true) :
    (c.pow b exponent).outcome = .error .invalidInput := by
  unfold pow
  rw [if_pos hsign]
  rfl

theorem mulMod_outcome (h : Valid c) {a b : BigInt} :
    ∃ r, (c.mulMod a b).outcome = .ok r ∧
      Represents r (a.toInt * b.toInt % c.modulus.toInt) := by
  obtain ⟨a', hoka, ha⟩ := reduce_outcome h (x := a)
  obtain ⟨b', hokb, hb⟩ := reduce_outcome h (x := b)
  have hsquare : c.radix * c.radix % c.modulus.magnitude < c.modulus.magnitude :=
    Nat.mod_lt _ h.modulus_pos
  obtain ⟨v, hv, hr, hval⟩ := mulFitting_value h ha.canonical hb.canonical
    (by rw [ha.magnitude_eq]; exact residue_lt h _)
    (h.size_of_below hb.canonical (by rw [hb.magnitude_eq]; exact residue_lt h _))
  obtain ⟨w, hw, hr', hval'⟩ := mulFitting_value h hr.canonical h.rSquared.canonical
    (by rwa [hr.magnitude_eq])
    (h.size_of_below h.rSquared.canonical (by rwa [h.rSquared.magnitude_eq]))
  rw [ha.magnitude_eq, hb.magnitude_eq] at hval
  rw [hr.magnitude_eq, h.rSquared.magnitude_eq] at hval'
  have hcong : w ≡ c.residue a.toInt * c.residue b.toInt [MOD c.modulus.magnitude] := by
    apply h.cancel
    calc w * c.radix ≡ v * (c.radix * c.radix % c.modulus.magnitude)
          [MOD c.modulus.magnitude] := hval'
      _ ≡ v * (c.radix * c.radix) [MOD c.modulus.magnitude] := (Nat.mod_modEq _ _).mul_left _
      _ = v * c.radix * c.radix := by ring
      _ ≡ c.residue a.toInt * c.residue b.toInt * c.radix [MOD c.modulus.magnitude] :=
        hval.mul_right _
  refine ⟨(c.mulFitting (c.mulFitting a' b').val c.rSquared).val, ?_, ?_⟩
  · unfold mulMod
    rw [Attempt.outcome_bind_ok _ hoka, Attempt.outcome_bind_ok _ hokb]
    rfl
  · rw [← residue_mul_cast h, ← hcong, Nat.mod_eq_of_lt hw]
    exact hr'

/-! ## Creation -/

theorem create_valid {m : BigInt} (hm : Canonical m) (hodd : m.magnitude % 2 = 1) :
    ∃ c, (create m).outcome = .ok c ∧ Valid c ∧ c.modulus.toInt = |m.toInt| := by
  have hzero : ¬ m.isZero = true := by
    intro hz
    rw [hm.isZero_iff, hm.toInt_eq_zero_iff, hm.size_eq_zero_iff] at hz
    omega
  have heven : ¬ m.isEven = true := by
    rw [BigInt.isEven_iff hm]
    omega
  have habs := BigInt.abs_canonical m
  have hmag : m.abs.val.magnitude = m.magnitude := by
    rw [← BigInt.toInt_natAbs, BigInt.abs_toInt, Int.natAbs_abs, BigInt.toInt_natAbs]
  have hone := BigInt.ofLimb_represents 1
  have hsquare := BigInt.shiftLeft_represents hone.canonical (2 * m.abs.val.size * Limb.bits)
  have hmod : m.abs.val.toInt = m.magnitude := by
    rw [BigInt.abs_toInt, Int.abs_eq_natAbs, BigInt.toInt_natAbs]
  obtain ⟨r, hok, hr⟩ := BigInt.emod_outcome
    (s := ((BigInt.ofLimb 1).val.shiftLeft (2 * m.abs.val.size * Limb.bits)).val) habs
    (by rw [hmod]; omega)
  refine ⟨⟨m.abs.val, m.abs.val.size, Limb.negInverse (m.abs.val.units.headD 0), r⟩, ?_, ?_,
    BigInt.abs_toInt m⟩
  · unfold create
    rw [if_neg hzero, if_neg heven, Attempt.outcome_bind_ok _ (Attempt.outcome_lift _),
      Attempt.outcome_bind_ok _ (Attempt.outcome_lift _),
      Attempt.outcome_bind_ok _ (Attempt.outcome_lift _),
      Attempt.outcome_bind_ok _ (Attempt.outcome_lift _), Attempt.outcome_bind_ok _ hok]
    rfl
  · have hodd' : m.abs.val.magnitude % 2 = 1 := hmag.symm ▸ hodd
    refine ⟨habs, rfl, hodd', rfl, clears_odd _ hodd', hr.canonical, ?_⟩
    have hpow : 2 * m.abs.val.size * Limb.bits = 64 * m.abs.val.size + 64 * m.abs.val.size := by
      unfold Limb.bits
      omega
    rw [hr.toInt_eq, hsquare.toInt_eq, hone.toInt_eq, hmod, hpow, pow_add]
    simp [radix, hmag]

theorem create_zero {m : BigInt} (hm : Canonical m) (h0 : m.toInt = 0) :
    (create m).outcome = .error .divisionByZero := by
  unfold create
  rw [if_pos (hm.isZero_iff.mpr h0)]
  rfl

theorem create_even {m : BigInt} (hm : Canonical m) (h0 : m.toInt ≠ 0)
    (heven : m.magnitude % 2 = 0) : (create m).outcome = .error .invalidModulus := by
  have hzero : ¬ m.isZero = true := fun hz => h0 (hm.isZero_iff.mp hz)
  unfold create
  rw [if_neg hzero, if_pos ((BigInt.isEven_iff hm).mpr heven)]
  rfl

end Products

end CryptoPrimitives.MontgomeryContext
