import CryptoPrimitives.Proofs.Hash.Formula

/-!
# A keyed context called again and again

What the two hashes of a context hold after any calls, told by the messages that the context has
taken in since it was last armed. A finish for which there was no room ends a message without
arming the context anew: its digest stays in the outer hash, and the inner one goes on without the
key.
-/

set_option autoImplicit false

namespace CryptoPrimitives

inductive HmacCall
  | update (data : Bytes)
  | reset
  | finish (out : Bytes)
  deriving DecidableEq, Repr

/-- The messages taken in since the context was armed: those that a refused finish has ended, and
the one that is being fed. -/
structure Intake where
  ended : List Bytes
  message : Bytes
  deriving DecidableEq, Repr

namespace Intake

def empty : Intake := ⟨[], []⟩

def next (size : Nat) (g : Intake) : HmacCall → Intake
  | .update data => { g with message := g.message ++ data }
  | .reset => empty
  | .finish out => if out.length < size then ⟨g.ended ++ [g.message], []⟩ else empty

def ofCalls (size : Nat) (calls : List HmacCall) : Intake := calls.foldl (next size) empty

end Intake

namespace Hmac

variable {H : HashFunction}

def after (h : Hmac H) : HmacCall → Hmac H
  | .update data => h.update data
  | .reset => h.reset
  | .finish out => (h.finish out).context

def run (h : Hmac H) (calls : List HmacCall) : Hmac H := calls.foldl after h

section

variable (H) (key : Bytes)

def lead : List Bytes → Bytes
  | [] => innerKey H key
  | _ :: _ => []

def digests : List Bytes → Bytes
  | [] => []
  | first :: later =>
    H.hash (innerKey H key ++ first) ++ later.flatMap H.hash

def chain (messages : List Bytes) : Bytes :=
  H.hash (outerKey H key ++ digests H key messages)

theorem chain_single (message : Bytes) : chain H key [message] = formula H key message := by
  rw [chain, digests, List.flatMap_nil, List.append_nil, formula]

def holding (g : Intake) : Hmac H where
  inner := ⟨lead H key g.ended ++ g.message⟩
  outer := ⟨outerKey H key ++ digests H key g.ended⟩
  keyBlock := blockOfKey H key

theorem create_holding : create H key = holding H key .empty := by
  simp only [create_eq, holding, Intake.empty, lead, digests, List.append_nil]

variable {H key}

theorem digests_concat (ended : List Bytes) (message : Bytes) :
    digests H key (ended ++ [message]) =
      digests H key ended ++ H.hash (lead H key ended ++ message) := by
  cases ended with
  | nil => simp [digests, lead]
  | cons first later => simp [digests, lead]

theorem update_holding (g : Intake) (data : Bytes) :
    (holding H key g).update data = holding H key ⟨g.ended, g.message ++ data⟩ := by
  simp only [update, Digest.update, holding, List.append_assoc]

theorem reset_holding (g : Intake) : (holding H key g).reset = create H key := rfl

/-- The inner hash has given its digest away before the room for the code is looked at. -/
theorem finish_inner (g : Intake) :
    (holding H key g).inner.finish (Bytes.zeros (holding H key g).outputSize) =
      ⟨.ok (), H.hash (lead H key g.ended ++ g.message), ⟨[]⟩⟩ :=
  Digest.finish_exact ⟨lead H key g.ended ++ g.message⟩ (Bytes.length_zeros _)

theorem finish_refused (g : Intake) {out : Bytes} (hout : out.length < H.outputSize) :
    (holding H key g).finish out =
      ⟨.error (.bufferTooSmall H.outputSize out.length), out,
        holding H key ⟨g.ended ++ [g.message], []⟩⟩ := by
  have hlead : lead H key (g.ended ++ [g.message]) = [] := by cases g.ended <;> rfl
  have houter : ∀ data, ((holding H key g).outer.update data).finish out =
      ⟨.error (.bufferTooSmall H.outputSize out.length), out,
        (holding H key g).outer.update data⟩ := fun data => if_pos hout
  rw [finish, finish_inner]
  simp only [houter]
  simp only [holding, Digest.update, digests_concat, hlead, List.append_assoc, List.append_nil]

theorem finish_accepted (g : Intake) {out : Bytes} (hout : H.outputSize ≤ out.length) :
    (holding H key g).finish out =
      ⟨.ok (), chain H key (g.ended ++ [g.message]) ++ out.drop H.outputSize,
        create H key⟩ := by
  have hsize : (chain H key (g.ended ++ [g.message])).length = H.outputSize :=
    H.length_hash _
  have hwritten : Bytes.overlay (chain H key (g.ended ++ [g.message])) out =
      chain H key (g.ended ++ [g.message]) ++ out.drop H.outputSize := by
    rw [Bytes.overlay_fits (hsize ▸ hout), hsize]
  have hfed : ∀ data, ((holding H key g).outer.update data).fed =
      outerKey H key ++ (digests H key g.ended ++ data) :=
    fun data => List.append_assoc _ _ _
  have houter : ∀ data, ((holding H key g).outer.update data).finish out =
      ⟨.ok (), Bytes.overlay (H.hash ((holding H key g).outer.update data).fed) out,
        ⟨[]⟩⟩ := fun data => Digest.finish_fits _ out hout
  rw [finish, finish_inner]
  simp only [houter, hfed, ← digests_concat]
  rw [← chain, hwritten]
  rfl

theorem after_holding (g : Intake) (call : HmacCall) :
    (holding H key g).after call = holding H key (g.next H.outputSize call) := by
  cases call with
  | update data => exact update_holding g data
  | reset => exact (reset_holding g).trans (create_holding H key)
  | finish out =>
    rw [after, Intake.next]
    by_cases hout : out.length < H.outputSize
    · rw [finish_refused g hout, if_pos hout]
    · rw [finish_accepted g (Nat.le_of_not_lt hout), if_neg hout, create_holding]

/-- After any calls a context holds what the calls have left in it. -/
theorem run_holding (calls : List HmacCall) :
    run (create H key) calls = holding H key (Intake.ofCalls H.outputSize calls) := by
  have hfrom : ∀ g, run (holding H key g) calls =
      holding H key (calls.foldl (Intake.next H.outputSize) g) := by
    induction calls with
    | nil => exact fun g => rfl
    | cons call calls ih =>
      intro g
      rw [run, List.foldl_cons, after_holding]
      exact ih _
  rw [create_holding]
  exact hfrom _

end

end Hmac

end CryptoPrimitives
