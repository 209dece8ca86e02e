import CryptoPrimitives.Bytes
import CryptoPrimitives.Proofs.Radix.Reading
import Mathlib.Data.Nat.Digits.Div

/-!
# Reading into the room set aside

The limbs of a numeral that is being read stand in a buffer with room for more. A limb appended to a
full buffer moves all of them to a larger one, and what the old one held is left behind, which is
noted here. The room set aside before the first digit is enough for any text: the limbs have no zero
on top, so there are no more of them than the bits of the digits read so far need.
-/

set_option autoImplicit false

namespace CryptoPrimitives

/-! ## Limbs without a zero on top -/

namespace Units

def Tight (us : Units) : Prop := ∀ u ∈ us.getLast?, u ≠ 0

theorem tight_nil : Tight [] := fun u hu => by cases hu

theorem tight_snoc_iff (us : Units) (u : Limb) : Tight (us ++ [u]) ↔ u ≠ 0 := by
  simp [Tight]

theorem tight_iff_lower (us : Units) :
    Tight us ↔ (us ≠ [] → 2 ^ (64 * (us.length - 1)) ≤ val us) := by
  induction us using List.reverseRecOn with
  | nil => exact ⟨fun _ h => absurd rfl h, fun _ => tight_nil⟩
  | append_singleton us u _ =>
    have hlt := val_lt us
    rw [tight_snoc_iff, val_append, val_cons, val_nil, List.length_append, List.length_singleton,
      Nat.add_sub_cancel, Nat.mul_zero, Nat.add_zero]
    constructor
    · intro hu _
      have hpos : 0 < u.toNat := Nat.pos_of_ne_zero fun h => hu (UInt64.toNat_inj.mp h)
      have hmul := Nat.le_mul_of_pos_right (2 ^ (64 * us.length)) hpos
      omega
    · rintro h rfl
      have hlow := h (by simp)
      rw [UInt64.toNat_zero, Nat.mul_zero] at hlow
      omega

theorem Tight.eq_nil_iff {us : Units} (h : Tight us) : us = [] ↔ val us = 0 := by
  constructor
  · rintro rfl
    rfl
  · intro h0
    by_contra hne
    have hlow := (tight_iff_lower us).mp h hne
    have hpos : 0 < 2 ^ (64 * (us.length - 1)) := Nat.two_pow_pos _
    omega

/-- So many limbs at most as the bits of the value fill. -/
theorem Tight.length_le {us : Units} (h : Tight us) {bits : Nat} (hbits : val us < 2 ^ bits) :
    us.length ≤ ceilDiv bits 64 := by
  by_cases hne : us = []
  · rw [hne]
    exact Nat.zero_le _
  · have hlow := (tight_iff_lower us).mp h hne
    have hexp := (Nat.pow_lt_pow_iff_right (by decide)).mp (hlow.trans_lt hbits)
    unfold ceilDiv
    omega

variable [Rendition]

theorem Tight.scaleAdd {us : Units} (h : Tight us) {v : Limb} (hv : 0 < v.toNat) (a : Limb) :
    Tight (scaleAdd us v a) := by
  have hvalue := scaleAdd_value us v a
  have hlen := length_mulCarry us v a
  rw [Units.scaleAdd] at hvalue ⊢
  simp only at hvalue ⊢
  split at hvalue
  · next h0 =>
    rw [if_pos h0, tight_iff_lower]
    intro hne
    have hus : us ≠ [] := by
      rintro rfl
      exact hne rfl
    have hlow := (tight_iff_lower us).mp h hus
    have hmul := Nat.le_mul_of_pos_right (val us) hv
    rw [hlen]
    omega
  · next h0 =>
    rw [if_neg h0, tight_snoc_iff]
    exact h0

end Units

/-! ## A buffer that may move -/

structure Growable where
  held : Units
  room : Nat
  deriving DecidableEq, Repr

namespace Growable

def push (g : Growable) (u : Limb) : Recorded Units Growable :=
  if g.held.length < g.room then ⟨⟨g.held ++ [u], g.room⟩, []⟩
  else ⟨⟨g.held ++ [u], max (2 * g.room) 4⟩, [g.held]⟩

variable [Rendition]

def scaleAdd (g : Growable) (v a : Limb) : Recorded Units Growable :=
  let (low, carry) := Units.mulCarry g.held v a
  if carry = 0 then pure ⟨low, g.room⟩ else push ⟨low, g.room⟩ carry

theorem scaleAdd_held (g : Growable) (v a : Limb) :
    (g.scaleAdd v a).val.held = Units.scaleAdd g.held v a := by
  unfold scaleAdd push Units.scaleAdd
  simp only
  split_ifs <;> rfl

/-- With room for one limb nothing moves. -/
theorem scaleAdd_stays {g : Growable} (h : g.held.length < g.room) (v a : Limb) :
    (g.scaleAdd v a).entries = [] ∧ (g.scaleAdd v a).val.room = g.room := by
  unfold scaleAdd
  simp only
  split
  · exact ⟨rfl, rfl⟩
  · have hfits : (Units.mulCarry g.held v a).1.length < g.room := by rwa [Units.length_mulCarry]
    simp [push, hfits]

theorem length_scaleAdd_le (g : Growable) (v a : Limb) :
    (g.scaleAdd v a).val.held.length ≤ g.held.length + 1 := by
  have hlen := Units.length_mulCarry g.held v a
  rw [scaleAdd_held, Units.scaleAdd]
  simp only
  split
  · omega
  · rw [List.length_append, List.length_singleton, hlen]

end Growable

namespace Radix

structure Gathering where
  limbs : Growable
  chunk : Limb
  count : Nat
  deriving DecidableEq, Repr

namespace Gathering

def plain (g : Gathering) : Accumulator := ⟨g.limbs.held, g.chunk, g.count⟩

def start (room : Nat) : Gathering := ⟨⟨[], room⟩, 0, 0⟩

variable [Rendition]

def push (radix : Nat) (g : Gathering) (digit : Nat) : Recorded Units Gathering := do
  let (k, base) := chunkBase radix
  let chunk := g.chunk * radix.toUInt64 + digit.toUInt64
  if g.count + 1 = k then
    let limbs ← g.limbs.scaleAdd base chunk
    return ⟨limbs, 0, 0⟩
  else return ⟨g.limbs, chunk, g.count + 1⟩

def flush (radix : Nat) (g : Gathering) : Recorded Units Growable :=
  if g.count = 0 then pure g.limbs
  else g.limbs.scaleAdd (limbPower radix.toUInt64 g.count) g.chunk

theorem push_plain (radix : Nat) (g : Gathering) (digit : Nat) :
    (g.push radix digit).val.plain = g.plain.push radix digit := by
  unfold push Accumulator.push
  by_cases hfull : g.count + 1 = (chunkBase radix).1
  · simp [plain, hfull, Growable.scaleAdd_held]
  · simp [plain, hfull]

theorem flush_held (radix : Nat) (g : Gathering) :
    (g.flush radix).val.held = g.plain.flush radix := by
  unfold flush Accumulator.flush
  by_cases h0 : g.count = 0
  · simp [plain, h0]
  · simp [plain, h0, Growable.scaleAdd_held]

end Gathering

def digitBits (radix : Nat) : Nat := (radix - 1).size

def reservedRoom (radix bytes : Nat) : Nat := ceilDiv (bytes * digitBits radix) Limb.bits + 1

section Buffered

variable [Rendition]

def readBuffered (radix : Nat) :
    List Char → Nat → Gathering → Recorded Units (Except Fault Gathering)
  | [], _, g => pure (.ok g)
  | ch :: rest, pos, g =>
    match digitValue? radix ch with
    | none => pure (.error (.invalidDigit ch pos))
    | some digit => do
      let g ← g.push radix digit
      readBuffered radix rest (pos + ch.utf8Size) g

def readInRoom (text : List Char) (radix : Nat) : Recorded Units (Except Fault (Bool × Units)) :=
  match check radix with
  | .error e => pure (.error e)
  | .ok _ =>
    let (negative, start, digits) := splitSign text
    if digits.isEmpty then pure (.error .invalidInput)
    else do
      let g := Gathering.start (reservedRoom radix (utf8Length digits))
      match ← readBuffered radix digits start g with
      | .error e => pure (.error e)
      | .ok g =>
        let limbs ← g.flush radix
        return .ok (negative, limbs.held)

end Buffered

/-! ## Between two digits -/

structure Underway (radix room : Nat) (values : List Nat) (g : Gathering) : Prop where
  holds : Holds radix values g.plain
  count_eq : g.count = values.length % chunkLength radix
  tight : Units.Tight g.limbs.held
  room_eq : g.limbs.room = room

variable {radix room : Nat} {values : List Nat} {g : Gathering} {d : Nat}

theorem underway_start (hr : radix ≤ 36) (room : Nat) :
    Underway radix room [] (Gathering.start room) :=
  ⟨holds_nil hr, (Nat.zero_mod _).symm, Units.tight_nil, rfl⟩

theorem ofDigits_lt (h2 : 2 ≤ radix) (hvalues : ∀ v ∈ values, v < radix) :
    Nat.ofDigits radix values.reverse < 2 ^ (values.length * digitBits radix) := by
  have hdigits : ∀ v ∈ values.reverse, v < radix := fun v hv => hvalues v (List.mem_reverse.mp hv)
  have hlt := Nat.ofDigits_lt_base_pow_length (by omega) hdigits
  have hsize : radix - 1 < 2 ^ digitBits radix := Nat.lt_size_self _
  rw [List.length_reverse] at hlt
  rw [Nat.mul_comm, pow_mul]
  exact hlt.trans_le (Nat.pow_le_pow_left (by omega) _)

/-- Limbs without a zero on top whose value the digits bound have one limb of room left. -/
theorem length_lt_room (h2 : 2 ≤ radix) (hvalues : ∀ v ∈ values, v < radix) {bytes : Nat}
    (hbytes : values.length ≤ bytes) {us : Units} (htight : Units.Tight us)
    (hle : Units.val us ≤ Nat.ofDigits radix values.reverse) :
    us.length < reservedRoom radix bytes := by
  have hlt := ofDigits_lt h2 hvalues
  have hpow : 2 ^ (values.length * digitBits radix) ≤ 2 ^ (bytes * digitBits radix) :=
    Nat.pow_le_pow_right (by decide) (Nat.mul_le_mul_right _ hbytes)
  exact Nat.lt_succ_of_le (htight.length_le (hle.trans_lt (hlt.trans_le hpow)))

namespace Underway

theorem held_le (h : Underway radix room values g) (h2 : 2 ≤ radix) :
    Units.val g.limbs.held ≤ Nat.ofDigits radix values.reverse := by
  have hvalue : Units.val g.limbs.held * radix ^ g.count + g.chunk.toNat = _ := h.holds.value
  have hmul := Nat.le_mul_of_pos_right (Units.val g.limbs.held)
    (show 0 < radix ^ g.count from Nat.pow_pos (by omega))
  omega

/-- The limbs hold the full chunks and the pending one what follows them. -/
theorem parts (h : Underway radix room values g) (h2 : 2 ≤ radix)
    (hvalues : ∀ v ∈ values, v < radix) :
    let folded := chunkLength radix * (values.length / chunkLength radix)
    Units.val g.limbs.held = Nat.ofDigits radix (values.take folded).reverse ∧
      g.chunk.toNat = Nat.ofDigits radix (values.drop folded).reverse := by
  intro folded
  have hfolded : folded = values.length - g.count := by
    have hdiv := Nat.div_add_mod values.length (chunkLength radix)
    rw [h.count_eq]
    omega
  have hcount : g.count ≤ values.length := by
    rw [h.count_eq]
    exact Nat.mod_le _ _
  have hvalue : Units.val g.limbs.held * radix ^ g.count + g.chunk.toNat =
    Nat.ofDigits radix values.reverse := h.holds.value
  have hchunk : g.chunk.toNat < radix ^ g.count := h.holds.chunk_lt
  have hdigits : ∀ v ∈ values.reverse, v < radix := fun v hv => hvalues v (List.mem_reverse.mp hv)
  have hlow := Nat.ofDigits_mod_pow_eq_ofDigits_take g.count (by omega) values.reverse hdigits
  have hhigh := Nat.ofDigits_div_pow_eq_ofDigits_drop g.count (by omega) values.reverse hdigits
  rw [← hvalue, Nat.mul_comm, Nat.mul_add_mod, Nat.mod_eq_of_lt hchunk, List.take_reverse] at hlow
  rw [← hvalue, Nat.mul_comm, Nat.mul_add_div (by omega), Nat.div_eq_of_lt hchunk, Nat.add_zero,
    List.drop_reverse] at hhigh
  rw [hfolded]
  exact ⟨hhigh, hlow⟩

section Steps

variable [Rendition]

theorem push (h : Underway radix room values g) (h2 : 2 ≤ radix) (hr : radix ≤ 36) (hd : d < radix)
    (hroom : g.limbs.held.length < room) :
    (g.push radix d).entries = [] ∧ Underway radix room (values ++ [d]) (g.push radix d).val := by
  have hholds := h.holds.push h2 hr hd
  rw [← Gathering.push_plain] at hholds
  have hcount := h.count_eq
  have hlt : g.count < chunkLength radix := h.holds.count_lt
  have hmod : (values ++ [d]).length % chunkLength radix = (g.count + 1) % chunkLength radix := by
    rw [List.length_append, List.length_singleton, hcount, Nat.mod_add_mod]
  have hbase : 0 < (chunkBase radix).2.toNat := by
    rw [(chunkBase_power hr).1]
    exact Nat.pow_pos (by omega)
  unfold Gathering.push at hholds ⊢
  by_cases hfull : g.count + 1 = (chunkBase radix).1
  · simp only [hfull, if_true] at hholds ⊢
    obtain ⟨hquiet, hkept⟩ := Growable.scaleAdd_stays (h.room_eq ▸ hroom) (chunkBase radix).2
      (g.chunk * radix.toUInt64 + d.toUInt64)
    refine ⟨by simpa using hquiet, hholds, ?_, ?_, hkept.trans h.room_eq⟩
    · rw [hmod, hfull]
      exact (Nat.mod_self _).symm
    · simp only [Recorded.val_bind, Recorded.val_pure, Growable.scaleAdd_held]
      exact h.tight.scaleAdd hbase _
  · simp only [hfull, if_false] at hholds ⊢
    refine ⟨rfl, hholds, ?_, h.tight, h.room_eq⟩
    rw [hmod, Nat.mod_eq_of_lt (by unfold chunkLength at *; omega)]
    rfl

theorem length_push_le (radix : Nat) (g : Gathering) (d : Nat) :
    (g.push radix d).val.limbs.held.length ≤ g.limbs.held.length + 1 := by
  unfold Gathering.push
  by_cases hfull : g.count + 1 = (chunkBase radix).1
  · simp only [hfull, if_true]
    exact Growable.length_scaleAdd_le _ _ _
  · simp [hfull]

/-- The unfinished chunk goes the way of the full ones, by a lower power of the radix. -/
theorem flush (h : Underway radix room values g) (h2 : 2 ≤ radix) (hr : radix ≤ 36)
    (hroom : g.limbs.held.length < room) :
    (g.flush radix).entries = [] ∧ Units.Tight (g.flush radix).val.held ∧
      (g.flush radix).val.room = room := by
  unfold Gathering.flush
  by_cases h0 : g.count = 0
  · rw [if_pos h0]
    exact ⟨rfl, h.tight, h.room_eq⟩
  · rw [if_neg h0]
    obtain ⟨hquiet, hkept⟩ := Growable.scaleAdd_stays (h.room_eq ▸ hroom)
      (limbPower radix.toUInt64 g.count) g.chunk
    have hcount : g.count < chunkLength radix := h.holds.count_lt
    refine ⟨hquiet, ?_, hkept.trans h.room_eq⟩
    rw [Growable.scaleAdd_held]
    apply h.tight.scaleAdd
    rw [limbPower_value h2 hr hcount.le]
    exact Nat.pow_pos (by omega)

end Steps

end Underway

/-! ## Whole texts -/

theorem length_le_utf8Length (cs : List Char) : cs.length ≤ utf8Length cs := by
  induction cs with
  | nil => exact Nat.zero_le _
  | cons ch cs ih =>
    have hpos := ch.utf8Size_pos
    rw [utf8Length_cons, List.length_cons]
    omega

theorem digits_values {good : List Char} (h : ∀ ch ∈ good, ∃ v, IsDigit radix ch v) :
    ∃ values, List.Forall₂ (IsDigit radix) good values := by
  rcases digits_or_bad radix good with hgood | ⟨_, bad, _, rfl, -, hbad⟩
  · exact hgood
  · exact absurd (h bad (by simp)) hbad

section Texts

variable [Rendition]

/-- Digits are read one after another, the limbs staying where they are. -/
theorem readBuffered_digits (h2 : 2 ≤ radix) (hr : radix ≤ 36) {bytes : Nat} {good : List Char}
    {read : List Nat} (hdigits : List.Forall₂ (IsDigit radix) good read)
    (h : Underway radix (reservedRoom radix bytes) values g) (hvalues : ∀ v ∈ values, v < radix)
    (hbytes : values.length + read.length ≤ bytes) :
    ∃ g', Underway radix (reservedRoom radix bytes) (values ++ read) g' ∧
      g'.plain = read.foldl (Accumulator.push radix) g.plain ∧
      ∀ tail pos, readBuffered radix (good ++ tail) pos g =
        readBuffered radix tail (pos + utf8Length good) g' := by
  induction hdigits generalizing values g with
  | nil => exact ⟨g, by rwa [List.append_nil], rfl, fun _ _ => rfl⟩
  | @cons ch d good read hd _ ih =>
    rw [List.length_cons] at hbytes
    have hroom := length_lt_room h2 hvalues (show values.length ≤ bytes by omega) h.tight
      (h.held_le h2)
    obtain ⟨hquiet, hnext⟩ := h.push h2 hr hd.1 hroom
    have hall : ∀ v ∈ values ++ [d], v < radix :=
      List.forall_mem_append.mpr ⟨hvalues, by simpa using hd.1⟩
    obtain ⟨g', hg', hplain, hrest⟩ := ih hnext hall (by simp; omega)
    refine ⟨g', by simpa using hg', by rw [hplain, Gathering.push_plain]; rfl, fun tail pos => ?_⟩
    rw [utf8Length_cons, ← Nat.add_assoc, ← hrest, List.cons_append, readBuffered,
      (digitValue?_iff hr _ _).mpr hd]
    apply Recorded.ext
    · rfl
    · rw [Recorded.entries_bind, hquiet]
      rfl

/-- Digits from the first one on, in the room that was set aside for the whole text. -/
theorem readBuffered_start (h2 : 2 ≤ radix) (hr : radix ≤ 36) {good : List Char}
    (hdigits : List.Forall₂ (IsDigit radix) good values) (tail : List Char) :
    ∃ g, Underway radix (reservedRoom radix (utf8Length (good ++ tail))) values g ∧
      g.plain = values.foldl (Accumulator.push radix) ⟨[], 0, 0⟩ ∧
      ∀ rest pos, readBuffered radix (good ++ rest) pos
        (Gathering.start (reservedRoom radix (utf8Length (good ++ tail)))) =
          readBuffered radix rest (pos + utf8Length good) g := by
  have hbytes : values.length ≤ utf8Length (good ++ tail) := by
    have hlen := length_le_utf8Length (good ++ tail)
    rw [List.length_append, hdigits.length_eq] at hlen
    omega
  exact readBuffered_digits h2 hr hdigits (underway_start hr _) (fun v hv => by cases hv)
    (by simpa using hbytes)

/-- A whole numeral is read, and its unfinished chunk folded in, in the room set aside. -/
theorem readBuffered_numeral (h2 : 2 ≤ radix) (hr : radix ≤ 36) {digits : List Char}
    (hdigits : List.Forall₂ (IsDigit radix) digits values) (pos : Nat) :
    ∃ g, readBuffered radix digits pos (.start (reservedRoom radix (utf8Length digits))) =
        pure (.ok g) ∧
      g.plain = values.foldl (Accumulator.push radix) ⟨[], 0, 0⟩ ∧
      (g.flush radix).entries = [] := by
  obtain ⟨g, hg, hplain, hread⟩ := readBuffered_start h2 hr hdigits []
  have hrun := hread [] pos
  rw [List.append_nil] at hg hrun
  have hlen := length_le_utf8Length digits
  rw [hdigits.length_eq] at hlen
  have hroom := length_lt_room h2 (IsDigit.all_lt hdigits) hlen hg.tight (hg.held_le h2)
  exact ⟨g, hrun, hplain, (hg.flush h2 hr hroom).1⟩

/-- The digits before a character that is none leave nothing behind either. -/
theorem readBuffered_bad (h2 : 2 ≤ radix) (hr : radix ≤ 36) {good : List Char} {bad : Char}
    (hgood : ∀ ch ∈ good, ∃ v, IsDigit radix ch v) (hbad : ¬∃ v, IsDigit radix bad v)
    (tail : List Char) (pos : Nat) :
    readBuffered radix (good ++ bad :: tail) pos
        (.start (reservedRoom radix (utf8Length (good ++ bad :: tail)))) =
      pure (.error (.invalidDigit bad (pos + utf8Length good))) := by
  obtain ⟨values, hdigits⟩ := digits_values hgood
  obtain ⟨g, -, -, hread⟩ := readBuffered_start h2 hr hdigits (bad :: tail)
  rw [hread, readBuffered, (digitValue?_eq_none hr bad).mpr hbad]

/-- Whatever the text, it is read as without a buffer, and nothing is left behind. -/
theorem readInRoom_eq (text : String) (radix : Nat) :
    readInRoom text.toList radix = ⟨read text.toList radix, []⟩ := by
  by_cases hradix : 2 ≤ radix ∧ radix ≤ 36
  · obtain ⟨h2, hr⟩ := hradix
    obtain ⟨sign, rest, hsigned⟩ := signed_exists text.toList
    by_cases hne : rest = []
    · rw [readInRoom, read, check_ok h2 hr, splitSign_eq hsigned, hne]
      rfl
    · have hempty : rest.isEmpty = false := by simpa using hne
      rw [read_eq h2 hr hsigned hne, readInRoom, check_ok h2 hr, splitSign_eq hsigned]
      simp only [hempty, Bool.false_eq_true, if_false]
      rcases digits_or_bad radix rest with ⟨values, hdigits⟩ | ⟨good, bad, tail, rfl, hgood, hbad⟩
      · obtain ⟨g, hrun, hplain, hflush⟩ :=
          readBuffered_numeral h2 hr hdigits (utf8Length sign.text)
        rw [hrun, readDigits_numeral hr hdigits, ← hplain]
        apply Recorded.ext
        · simp only [Recorded.val_bind, Recorded.val_pure, Gathering.flush_held]
          rfl
        · simpa using hflush
      · rw [readBuffered_bad h2 hr hgood hbad, readDigits_bad hr hgood hbad]
        rfl
  · rw [readInRoom, read, check_error hradix]
    rfl

/-- What holds between two digits. The pending chunk stays below the power of the radix that it
spans, and neither one digit more nor that power leaves a limb. The limbs hold the full chunks, have
no zero on top, and fit the room that was set aside; the next digit adds one limb at most, and so
does the unfinished chunk, with which the limbs hold all digits and still have not moved. -/
structure InRoom (radix bytes : Nat) (values : List Nat) (g : Gathering) : Prop where
  count_eq : g.count = values.length % chunkLength radix
  power_le : radix ^ g.count ≤ radix ^ chunkLength radix
  chunk_lt : g.chunk.toNat < radix ^ g.count
  next_fits : ∀ d < radix, g.chunk.toNat * radix + d < 2 ^ 64
  power_eq : (limbPower radix.toUInt64 g.count).toNat = radix ^ g.count
  folded : Units.val g.limbs.held = Nat.ofDigits radix
    (values.take (chunkLength radix * (values.length / chunkLength radix))).reverse
  pending : g.chunk.toNat = Nat.ofDigits radix
    (values.drop (chunkLength radix * (values.length / chunkLength radix))).reverse
  tight : Units.Tight g.limbs.held
  empty_iff : g.limbs.held = [] ↔ Units.val g.limbs.held = 0
  length_le : g.limbs.held.length ≤ g.limbs.room
  room_eq : g.limbs.room = ceilDiv (bytes * (radix - 1).size) 64 + 1
  push_le : ∀ d < radix, (g.push radix d).val.limbs.held.length ≤ g.limbs.held.length + 1
  flush_stays : (g.flush radix).entries = [] ∧ (g.flush radix).val.room = g.limbs.room
  flush_value : Units.val (g.flush radix).val.held = Nat.ofDigits radix values.reverse
  flush_tight : Units.Tight (g.flush radix).val.held
  flush_le : (g.flush radix).val.held.length ≤ g.limbs.held.length + 1 ∧
    (g.flush radix).val.held.length ≤ g.limbs.room

theorem Underway.inRoom {bytes : Nat} (h : Underway radix (reservedRoom radix bytes) values g)
    (h2 : 2 ≤ radix) (hr : radix ≤ 36) (hvalues : ∀ v ∈ values, v < radix)
    (hbytes : values.length ≤ bytes) : InRoom radix bytes values g := by
  have hroom := length_lt_room h2 hvalues hbytes h.tight (h.held_le h2)
  have hcount : g.count < chunkLength radix := h.holds.count_lt
  obtain ⟨hfolded, hpending⟩ := h.parts h2 hvalues
  obtain ⟨hquiet, htight, hkept⟩ := h.flush h2 hr hroom
  have hvalue := h.holds.flush h2 hr
  rw [← Gathering.flush_held] at hvalue
  have hlast := length_lt_room h2 hvalues hbytes htight hvalue.le
  refine ⟨h.count_eq, Nat.pow_le_pow_right (by omega) hcount.le, h.holds.chunk_lt,
    fun d hd => h.holds.next_fits h2 hr hd, limbPower_value h2 hr hcount.le, hfolded, hpending,
    h.tight, h.tight.eq_nil_iff, ?_, h.room_eq, fun d _ => Underway.length_push_le radix g d,
    ⟨hquiet, hkept.trans h.room_eq.symm⟩, hvalue, htight, ?_, ?_⟩
  · rw [h.room_eq]
    exact hroom.le
  · unfold Gathering.flush
    split
    · exact Nat.le_succ _
    · exact Growable.length_scaleAdd_le _ _ _
  · rw [h.room_eq]
    exact hlast.le

/-- A text is read in the room set aside for it: whatever its radix and its characters, no buffer is
left behind. After any digits of an accepted radix, also those in front of a character that is none,
the limbs, the pending chunk and the powers are as `InRoom` says, and the power of a full chunk fits
a limb. -/
theorem reading_stays_in_room (text : String) (radix : Nat) :
    readInRoom text.toList radix = ⟨read text.toList radix, []⟩ ∧
    (2 ≤ radix → radix ≤ 36 → radix ^ chunkLength radix < 2 ^ 64 ∧
      ∀ negative start digits, splitSign text.toList = (negative, start, digits) →
        ∀ good tail values, digits = good ++ tail → List.Forall₂ (IsDigit radix) good values →
          ∃ g, readBuffered radix good start
              (.start (reservedRoom radix (utf8Length digits))) = ⟨.ok g, []⟩ ∧
            InRoom radix (utf8Length digits) values g) := by
  refine ⟨readInRoom_eq text radix, fun h2 hr => ⟨chunk_fits hr, ?_⟩⟩
  rintro negative start _ - good tail values rfl hdigits
  obtain ⟨g, hg, -, hread⟩ := readBuffered_start h2 hr hdigits tail
  have hlen := length_le_utf8Length (good ++ tail)
  rw [List.length_append, hdigits.length_eq] at hlen
  have hrun := hread [] start
  rw [List.append_nil] at hrun
  exact ⟨g, hrun, hg.inRoom h2 hr (IsDigit.all_lt hdigits) (by omega)⟩

end Texts

/-- Thirteen digits of the largest radix: a full chunk and one digit of the next. -/
theorem reading_stays_in_room_letters :
    readInRoom "-zzzzzzzzzzzzZ".toList 36 = ⟨read "-zzzzzzzzzzzzZ".toList 36, []⟩ ∧
    ∃ g, readBuffered 36 "zzzzzzzzzzzzZ".toList 1 (.start (reservedRoom 36 13)) = ⟨.ok g, []⟩ ∧
      g.count = 1 ∧ Units.val g.limbs.held = 36 ^ 12 - 1 ∧ g.chunk.toNat = 35 ∧
      g.limbs.held.length ≤ g.limbs.room ∧ g.limbs.room = 3 := by
  obtain ⟨hwhole, hrun⟩ := reading_stays_in_room "-zzzzzzzzzzzzZ" 36
  have hlower : IsDigit 36 'z' 35 := ⟨by decide, by decide⟩
  have hupper : IsDigit 36 'Z' 35 := ⟨by decide, by decide⟩
  obtain ⟨g, hg, hroom⟩ := (hrun (by decide) (by decide)).2 true 1 "zzzzzzzzzzzzZ".toList rfl
    "zzzzzzzzzzzzZ".toList [] (List.replicate 13 35) (by simp)
    (by simp [List.replicate, hlower, hupper])
  refine ⟨hwhole, g, hg, ?_, ?_, ?_, hroom.length_le, ?_⟩
  · rw [hroom.count_eq]
    decide
  · rw [hroom.folded]
    decide
  · rw [hroom.pending]
    decide
  · rw [hroom.room_eq]
    decide

end Radix

end CryptoPrimitives
