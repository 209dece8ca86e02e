import CryptoPrimitives.Bytes
import Mathlib.Data.List.Nodup

/-!
# Histories of a generator manager

The events that decide where output comes from, oldest first. A byte of output is known by its
origin: the number of the block that it was produced in and its place there. `Kept h r` is the
invariant that ties what the cache still holds to the history.
-/

set_option autoImplicit false

namespace CryptoPrimitives

structure Origin where
  block : Nat
  offset : Nat
  deriving DecidableEq, Repr

abbrev Marked := UInt8 × Option Origin

inductive CsprngEvent
  | due
  | required
  | reseeded
  | produced (bytes : Bytes)
  | handed (byte : UInt8) (origin : Option Origin)
  deriving DecidableEq, Repr

structure ProducedBlock where
  bytes : Bytes
  epoch : Nat
  deriving DecidableEq, Repr

abbrev History := List CsprngEvent

namespace History

def blocksFrom : Nat → History → List ProducedBlock
  | _, [] => []
  | epoch, .produced bytes :: h => ⟨bytes, epoch⟩ :: blocksFrom epoch h
  | epoch, .reseeded :: h => blocksFrom (epoch + 1) h
  | epoch, _ :: h => blocksFrom epoch h

def blocks (h : History) : List ProducedBlock := blocksFrom 0 h

def blockBytes (h : History) : List Bytes := (blocks h).map ProducedBlock.bytes

def reseeds (h : History) : Nat := h.count .reseeded

def handouts (h : History) : List Marked :=
  h.filterMap fun
    | .handed byte origin => some (byte, origin)
    | _ => none

def handOut (out : List Marked) : History := out.map fun m => .handed m.1 m.2

def marked (block : Nat) (bytes : Bytes) : List Marked :=
  bytes.zipIdx.map fun p => (p.1, some ⟨block, p.2⟩)

def pendingFrom : Bool → History → Bool
  | pending, [] => pending
  | _, .due :: h => pendingFrom true h
  | _, .required :: h => pendingFrom true h
  | _, .reseeded :: h => pendingFrom false h
  | pending, _ :: h => pendingFrom pending h

/-! ## Histories appended -/

theorem reseeds_append (h h' : History) : reseeds (h ++ h') = reseeds h + reseeds h' :=
  List.count_append

theorem blocksFrom_append (epoch : Nat) (h h' : History) :
    blocksFrom epoch (h ++ h') = blocksFrom epoch h ++ blocksFrom (epoch + reseeds h) h' := by
  induction h generalizing epoch with
  | nil => simp [blocksFrom, reseeds]
  | cons e h ih =>
    cases e <;> simp [blocksFrom, ih, reseeds, Nat.add_assoc, Nat.add_comm 1]

theorem blocks_append (h h' : History) :
    blocks (h ++ h') = blocks h ++ blocksFrom (reseeds h) h' := by
  rw [blocks, blocksFrom_append, Nat.zero_add, blocks]

theorem blockBytes_from (epoch : Nat) (h : History) :
    (blocksFrom epoch h).map ProducedBlock.bytes = blockBytes h := by
  unfold blockBytes blocks
  induction h generalizing epoch with
  | nil => rfl
  | cons e h ih =>
    cases e with
    | produced bytes => exact congrArg (bytes :: ·) (ih epoch)
    | reseeded => exact (ih (epoch + 1)).trans (ih (0 + 1)).symm
    | _ => exact ih epoch

theorem blockBytes_append (h h' : History) :
    blockBytes (h ++ h') = blockBytes h ++ blockBytes h' := by
  rw [blockBytes, blocks_append, List.map_append, blockBytes_from, ← blockBytes]

theorem blockBytes_handOut (out : List Marked) : blockBytes (handOut out) = [] := by
  induction out with
  | nil => rfl
  | cons m out ih => exact ih

/-- An event that is no block adds none. -/
theorem blockBytes_note (h : History) {e : CsprngEvent} (he : ∀ bytes, e ≠ .produced bytes) :
    blockBytes (h ++ [e]) = blockBytes h := by
  rw [blockBytes_append]
  cases e with
  | produced bytes => exact absurd rfl (he bytes)
  | _ => exact List.append_nil _

theorem handouts_append (h h' : History) : handouts (h ++ h') = handouts h ++ handouts h' :=
  List.filterMap_append

theorem handouts_handOut (out : List Marked) : handouts (handOut out) = out := by
  induction out with
  | nil => rfl
  | cons m out ih =>
    have hcons : handouts (handOut (m :: out)) = m :: handouts (handOut out) := rfl
    rw [hcons, ih]

theorem pendingFrom_append (p : Bool) (h h' : History) :
    pendingFrom p (h ++ h') = pendingFrom (pendingFrom p h) h' := by
  induction h generalizing p with
  | nil => rfl
  | cons e h ih => cases e <;> simp [pendingFrom, ih]

/-- The epochs of blocks lie between those of the first and the last event. -/
theorem epoch_range (epoch : Nat) (h : History) :
    ∀ block ∈ blocksFrom epoch h, epoch ≤ block.epoch ∧ block.epoch ≤ epoch + reseeds h := by
  induction h generalizing epoch with
  | nil => simp [blocksFrom]
  | cons e h ih =>
    intro block hb
    cases e with
    | produced bytes =>
      simp only [blocksFrom, List.mem_cons] at hb
      rcases hb with rfl | hb
      · exact ⟨Nat.le_refl _, Nat.le_add_right _ _⟩
      · simpa [reseeds] using ih epoch block hb
    | reseeded =>
      have hr := ih (epoch + 1) block hb
      have hc : reseeds (.reseeded :: h) = reseeds h + 1 := by simp [reseeds]
      omega
    | due => simpa [reseeds] using ih epoch block hb
    | required => simpa [reseeds] using ih epoch block hb
    | handed byte origin => simpa [reseeds] using ih epoch block hb

/-! ## Origins -/

def Delivers (h : History) (byte : UInt8) (o : Origin) : Prop :=
  ∃ block, (blocks h)[o.block]? = some block ∧ block.bytes[o.offset]? = some byte ∧
    block.epoch = reseeds h

theorem Delivers.block_lt {h : History} {byte : UInt8} {o : Origin} (hd : Delivers h byte o) :
    o.block < (blocks h).length := by
  obtain ⟨block, hb, -⟩ := hd
  exact (List.getElem?_eq_some_iff.mp hb).1

/-- Nothing but a reseed ends an epoch. -/
theorem Delivers.append {h : History} {byte : UInt8} {o : Origin} (hd : Delivers h byte o)
    (es : History) (hes : reseeds es = 0) : Delivers (h ++ es) byte o := by
  have hlt := hd.block_lt
  obtain ⟨block, hb, hbyte, hepoch⟩ := hd
  refine ⟨block, ?_, hbyte, ?_⟩
  · rw [blocks_append, List.getElem?_append_left hlt, hb]
  · rw [reseeds_append, hes, Nat.add_zero, hepoch]

/-- What is delivered after a reseed was produced after it. -/
theorem Delivers.after_reseed {h rest : History} {byte : UInt8} {o : Origin}
    (hd : Delivers (h ++ .reseeded :: rest) byte o) : (blocks h).length ≤ o.block := by
  by_contra hlt
  obtain ⟨block, hb, -, hepoch⟩ := hd
  rw [blocks_append, List.getElem?_append_left (by omega)] at hb
  have hrange := epoch_range 0 h block (List.mem_of_getElem? hb)
  have hcount : reseeds (h ++ .reseeded :: rest) = reseeds h + (reseeds rest + 1) := by
    rw [reseeds_append]
    simp [reseeds]
  omega

theorem marked_delivers (h : History) (bytes : Bytes) (m : Marked)
    (hm : m ∈ marked (blocks h).length bytes) :
    ∃ o, m.2 = some o ∧ o.block = (blocks h).length ∧ Delivers (h ++ [.produced bytes]) m.1 o := by
  rw [marked, List.mem_map] at hm
  obtain ⟨p, hp, rfl⟩ := hm
  refine ⟨⟨(blocks h).length, p.2⟩, rfl, rfl, ⟨bytes, reseeds h⟩, ?_, ?_, ?_⟩
  · rw [blocks_append]
    simp [blocksFrom]
  · exact List.mem_zipIdx_iff_getElem?.mp hp
  · rw [reseeds_append]
    simp [reseeds]

theorem marked_distinct (block : Nat) (bytes : Bytes) :
    ((marked block bytes).map Prod.snd).Nodup := by
  rw [marked, List.map_map]
  have hsnd : (bytes.zipIdx.map Prod.snd).Nodup := by
    rw [List.zipIdx_map_snd]
    exact List.nodup_range'
  have hmap : bytes.zipIdx.map (Prod.snd ∘ fun p => (p.1, some (Origin.mk block p.2))) =
      (bytes.zipIdx.map Prod.snd).map fun i => some (Origin.mk block i) := by
    rw [List.map_map]
    rfl
  rw [hmap]
  apply hsnd.map
  intro i j hij
  simpa using hij

theorem marked_fst (block : Nat) (bytes : Bytes) : (marked block bytes).map Prod.fst = bytes := by
  rw [marked, List.map_map]
  exact List.zipIdx_map_fst _ _

end History

end CryptoPrimitives
