import CryptoPrimitives.Proofs.Hash.Intake
import Mathlib.Data.List.Induction

/-!
# One context for many messages

As long as every finish has room, each one gives the formula of what was fed since the last reset or
finish. A finish without room writes nothing but uses up the message and the key: until the context
is armed again, by a reset or by a finish that succeeds, its codes are those of a chain of messages.
-/

set_option autoImplicit false

namespace CryptoPrimitives

def HmacCall.data? : HmacCall → Option Bytes
  | .update data => some data
  | _ => none

def HmacCall.pending (calls : List HmacCall) : Bytes :=
  ((calls.reverse.takeWhile (·.data?.isSome)).reverse.filterMap data?).flatten

example : HmacCall.pending [.update [1], .reset, .update [2], .update [3, 4]] = [2, 3, 4] := by
  decide

open HmacCall

theorem HmacCall.pending_update (calls : List HmacCall) (data : Bytes) :
    pending (calls ++ [.update data]) = pending calls ++ data := by
  rw [pending, List.reverse_concat, List.takeWhile_cons_of_pos (by rfl), List.reverse_cons,
    List.filterMap_append, List.flatten_append]
  congr 1
  exact List.append_nil data

theorem HmacCall.pending_other (calls : List HmacCall) {call : HmacCall}
    (hcall : call.data? = none) : pending (calls ++ [call]) = [] := by
  rw [pending, List.reverse_concat, List.takeWhile_cons_of_neg (by simp [hcall])]
  rfl

/-- Where every finish has room, only the last message is held. -/
theorem Intake.ofCalls_roomy {size : Nat} {calls : List HmacCall}
    (hroom : ∀ out, .finish out ∈ calls → size ≤ out.length) :
    ofCalls size calls = ⟨[], pending calls⟩ := by
  induction calls using List.reverseRecOn with
  | nil => rfl
  | append_singleton calls call ih =>
    have hbefore := ih fun out hout => hroom out (List.mem_append_left _ hout)
    rw [ofCalls, List.foldl_append, ← ofCalls, hbefore, List.foldl_cons, List.foldl_nil]
    cases call with
    | update data => rw [pending_update, next]
    | reset => rw [pending_other calls rfl, next, empty]
    | finish out =>
      have hfits : size ≤ out.length :=
        hroom out (List.mem_append_right _ (List.mem_singleton_self _))
      rw [pending_other calls rfl, next, if_neg (Nat.not_lt.mpr hfits), empty]

namespace Hmac

/-- Over any hash function, between finishes with room, however the message is split: the formula of
what was fed since the last of them or a reset, in front of the buffer, and a context armed as at
first. So it is for the parts of one message, and for a key that goes through the inner hash. -/
theorem finish_writes_formula (H : HashFunction) (key : Bytes) :
    (∀ message, (formula H key message).length = H.outputSize) ∧
    (∀ calls out, (∀ buffer, .finish buffer ∈ calls → H.outputSize ≤ buffer.length) →
      H.outputSize ≤ out.length →
        (run (create H key) calls).finish out =
          ⟨.ok (), formula H key (pending calls) ++ out.drop H.outputSize, create H key⟩) ∧
    (∀ parts out, H.outputSize ≤ out.length →
      writeMac H key parts out =
        (.ok (), formula H key parts.flatten ++ out.drop H.outputSize)) ∧
    (∀ parts, macParts H key parts = formula H key parts.flatten ∧
      mac H key parts.flatten = formula H key parts.flatten) ∧
    createThrough H key = .ok (create H key) := by
  have hwrite : ∀ parts out, H.outputSize ≤ out.length → writeMac H key parts out =
      (.ok (), formula H key parts.flatten ++ out.drop H.outputSize) := by
    intro parts out hout
    rw [writeMac, foldl_update, create_holding, update_holding, finish_accepted _ hout,
      Intake.empty, List.nil_append, List.nil_append, chain_single]
  have hparts : ∀ parts, macParts H key parts = formula H key parts.flatten := by
    intro parts
    have hroom : (Bytes.zeros H.outputSize).length = H.outputSize := Bytes.length_zeros _
    have hrest : (Bytes.zeros H.outputSize).drop H.outputSize = [] :=
      List.drop_eq_nil_of_le (Nat.le_of_eq hroom)
    rw [macParts, hwrite parts _ (Nat.le_of_eq hroom.symm), hrest, List.append_nil]
  refine ⟨length_formula H key, fun calls out hroom hout => ?_, hwrite,
    fun parts => ⟨hparts parts, ?_⟩, createThrough_eq H key⟩
  · rw [run_holding, Intake.ofCalls_roomy hroom, finish_accepted _ hout, List.nil_append,
      chain_single]
  · rw [mac, hparts, List.flatten_singleton]

/-- A key of more than a block, a message given up, one in two pieces, and a buffer with more room
than the code takes. -/
theorem finish_writes_formula_split :
    let H := HashAlg.sha256.function
    let key := List.replicate 65 7
    (run (create H key)
        [.update [1], .finish (Bytes.zeros 32), .update [9], .reset, .update [2],
          .update [3]]).finish (Bytes.zeros 34) =
      ⟨.ok (), formula H key [2, 3] ++ [0, 0], create H key⟩ := by
  have hroom : ∀ buffer, HmacCall.finish buffer ∈
      [.update [1], .finish (Bytes.zeros 32), .update [9], .reset, .update [2], .update [3]] →
        HashAlg.sha256.function.outputSize ≤ buffer.length := by
    simp [HashAlg.function, HashAlg.outputSize]
  exact (finish_writes_formula HashAlg.sha256.function (List.replicate 65 7)).2.1 _ _ hroom
    (by decide)

/-- After any calls a finish without room fails and writes nothing, and the message stays behind in
the outer hash, with the key gone from the inner one. A finish with room gives the code of the chain
since the context was armed, which is the formula if nothing was refused in between, and arms the
context again, as a reset does. -/
theorem refused_finish_ends_message (H : HashFunction) (key : Bytes) (calls : List HmacCall) :
    let h := run (create H key) calls
    let g := Intake.ofCalls H.outputSize calls
    h = holding H key g ∧
    (∀ out, out.length < H.outputSize →
      h.finish out = ⟨.error (.bufferTooSmall H.outputSize out.length), out,
        holding H key ⟨g.ended ++ [g.message], []⟩⟩) ∧
    (∀ out, H.outputSize ≤ out.length →
      h.finish out = ⟨.ok (), chain H key (g.ended ++ [g.message]) ++ out.drop H.outputSize,
        create H key⟩) ∧
    (g.ended = [] → chain H key (g.ended ++ [g.message]) = formula H key g.message) ∧
    h.reset = create H key := by
  intro h g
  have hheld : h = holding H key g := run_holding calls
  refine ⟨hheld, fun out hout => ?_, fun out hout => ?_, fun hnone => ?_, ?_⟩
  · rw [hheld, finish_refused g hout]
  · rw [hheld, finish_accepted g hout]
  · rw [hnone, List.nil_append, chain_single]
  · rw [hheld, reset_holding]

/-- The second finish has room, and does not give the code of the message. -/
theorem refused_finish_loses_message :
    ¬ ∀ (alg : HashAlg) (key data short out : Bytes), short.length < alg.outputSize →
      alg.outputSize ≤ out.length →
        (run (create alg.function key) [.update data, .finish short]).finish out =
          ⟨.ok (), formula alg.function key data ++ out.drop alg.outputSize,
            create alg.function key⟩ := by
  intro hkept
  have hcode := hkept .sha256 [0x4a, 0x65, 0x66, 0x65] [0x61] (List.replicate 16 0xee)
    (List.replicate 32 0xee) (by decide) (by decide)
  rw [run_holding, finish_accepted _ (by decide)] at hcode
  have hout : chain HashAlg.sha256.function [0x4a, 0x65, 0x66, 0x65] [[0x61], []] ++ [] =
      formula HashAlg.sha256.function [0x4a, 0x65, 0x66, 0x65] [0x61] ++ [] :=
    congrArg Finished.out hcode
  exact absurd hout (by decide +kernel)

end Hmac

end CryptoPrimitives
