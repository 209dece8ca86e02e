import CryptoPrimitives.Proofs.Hash.Mac
import Mathlib.Data.List.GetD

/-!
# The formula of HMAC

The code of a message as it is written on paper: the hash of the masked key and the hash of the key
under the other mask and the message. A key that is longer than a block is hashed by the context
that later hashes the messages, and that makes no difference.
-/

set_option autoImplicit false

namespace CryptoPrimitives

variable {H : HashFunction}

theorem Bytes.overlay_fits {written buffer : Bytes} (h : written.length ≤ buffer.length) :
    Bytes.overlay written buffer = written ++ buffer.drop written.length := by
  rw [Bytes.overlay, List.take_of_length_le h]

theorem Digest.finish_exact (d : Digest H) {out : Bytes} (hout : out.length = H.outputSize) :
    d.finish out = ⟨.ok (), H.hash d.fed, d.reset⟩ := by
  have hroom : (H.hash d.fed).length = out.length := (H.length_hash _).trans hout.symm
  rw [d.finish_fits _ (Nat.le_of_eq hout.symm), Bytes.overlay_fits (Nat.le_of_eq hroom), hroom,
    List.drop_length, List.append_nil]

namespace Hmac

def paddedKey (H : HashFunction) (key : Bytes) : Bytes :=
  (List.range H.blockSize).map fun i =>
    (if H.blockSize < key.length then H.hash key else key).getD i 0

def innerKey (H : HashFunction) (key : Bytes) : Bytes :=
  Bytes.xor (paddedKey H key) (List.replicate H.blockSize 0x36)

def outerKey (H : HashFunction) (key : Bytes) : Bytes :=
  Bytes.xor (paddedKey H key) (List.replicate H.blockSize 0x5c)

def formula (H : HashFunction) (key message : Bytes) : Bytes :=
  H.hash (outerKey H key ++ H.hash (innerKey H key ++ message))

theorem length_formula (H : HashFunction) (key message : Bytes) :
    (formula H key message).length = H.outputSize := H.length_hash _

theorem padded_range {bytes : Bytes} {n : Nat} (h : bytes.length ≤ n) :
    (List.range n).map (fun i => bytes.getD i 0) = bytes ++ Bytes.zeros (n - bytes.length) := by
  refine List.ext_getElem ?_ fun i hi _ => ?_
  · rw [List.length_map, List.length_range, List.length_append, Bytes.length_zeros]
    omega
  · rw [List.getElem_map, List.getElem_range, List.getElem_append]
    split
    · rename_i hbytes
      exact List.getD_eq_getElem _ _ hbytes
    · rename_i hzeros
      rw [List.getD_eq_default _ _ (Nat.le_of_not_lt hzeros)]
      exact (List.getElem_replicate _).symm

theorem blockOfKey_eq (H : HashFunction) (key : Bytes) : blockOfKey H key = paddedKey H key := by
  refine (padded_range ?_).symm
  split
  · rw [H.length_hash]
    exact H.outputSize_le
  · rename_i hshort
    exact Nat.le_of_not_lt hshort

theorem masked_eq (mask : UInt8) (H : HashFunction) (key : Bytes) :
    masked mask (blockOfKey H key) =
      Bytes.xor (paddedKey H key) (List.replicate H.blockSize mask) := by
  have hlength : (paddedKey H key).length = H.blockSize := by
    rw [paddedKey, List.length_map, List.length_range]
  rw [blockOfKey_eq, masked, ← hlength]
  generalize paddedKey H key = block
  induction block with
  | nil => rfl
  | cons b block ih => exact congrArg (_ :: ·) ih

theorem create_eq (H : HashFunction) (key : Bytes) :
    create H key =
      ⟨⟨innerKey H key⟩, ⟨outerKey H key⟩, blockOfKey H key⟩ := by
  rw [innerKey, ← masked_eq, outerKey, ← masked_eq]
  rfl

def createThrough (H : HashFunction) (key : Bytes) : Except Fault (Hmac H) :=
  let block := Bytes.zeros H.blockSize
  if H.blockSize < key.length then
    let hashed := ((Digest.fresh H).update key).finish (block.take H.outputSize)
    match hashed.outcome with
    | .error e => .error e
    | .ok () =>
      .ok (reset ⟨hashed.context, .fresh H, hashed.out ++ block.drop H.outputSize⟩)
  else .ok (reset ⟨.fresh H, .fresh H, Bytes.overlay key block⟩)

theorem createThrough_eq (H : HashFunction) (key : Bytes) :
    createThrough H key = .ok (create H key) := by
  have hzeros : ∀ n, (Bytes.zeros H.blockSize).drop n = Bytes.zeros (H.blockSize - n) :=
    fun n => List.drop_replicate
  unfold createThrough create blockOfKey
  dsimp only
  split
  · have hroom : ((Bytes.zeros H.blockSize).take H.outputSize).length = H.outputSize := by
      rw [List.length_take, Bytes.length_zeros]
      exact Nat.min_eq_left H.outputSize_le
    have hhashed : ((Digest.fresh H).update key).finish
        ((Bytes.zeros H.blockSize).take H.outputSize) =
          ⟨.ok (), H.hash key, .fresh H⟩ := Digest.finish_exact ⟨key⟩ hroom
    rw [hhashed, hzeros, H.length_hash]
  · rename_i hshort
    have hroom : key.length ≤ (Bytes.zeros H.blockSize).length := by
      rw [Bytes.length_zeros]
      exact Nat.le_of_not_lt hshort
    rw [Bytes.overlay_fits hroom, hzeros]

end Hmac

end CryptoPrimitives
