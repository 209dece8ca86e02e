import CryptoPrimitives.Proofs.Drbg.CipherDerivation
import CryptoPrimitives.Proofs.Drbg.Generator

/-!
# Requests served in place

A generator changes field by field while it serves a request, and the caller's buffer fills block
by block, so a cipher or a code that refused half-way would leave both half changed. Here every
such step is written out, with its own refusal. From a well-formed generator none of them refuses,
and the request ends where the one over values does.
-/

set_option autoImplicit false

namespace CryptoPrimitives

/-! ## Steps that keep what they have done -/

structure Underway (δ : Type) where
  drbg : δ
  written : Bytes

structure InPlace (δ α : Type) where
  run : Underway δ → Except Fault α × Underway δ

namespace InPlace

variable {δ α β : Type}

instance : Monad (InPlace δ) where
  pure a := ⟨fun s => (.ok a, s)⟩
  bind x f := ⟨fun s =>
    match x.run s with
    | (.error e, s) => (.error e, s)
    | (.ok a, s) => (f a).run s⟩

def current : InPlace δ δ := ⟨fun s => (.ok s.drbg, s)⟩

def change (f : δ → δ) : InPlace δ Unit := ⟨fun s => (.ok (), { s with drbg := f s.drbg })⟩

def write (bytes : Bytes) : InPlace δ Unit :=
  ⟨fun s => (.ok (), { s with written := s.written ++ bytes })⟩

def require (a : Except Fault α) : InPlace δ α := ⟨fun s => (a, s)⟩

def each (f : Nat → InPlace δ Unit) : List Nat → InPlace δ Unit
  | [] => return ()
  | n :: ns => do
    f n
    each f ns

variable {x : InPlace δ α} {f : α → InPlace δ β} {s s' : Underway δ}

@[simp] theorem run_pure (a : α) : (pure a : InPlace δ α).run s = (.ok a, s) := rfl

@[simp] theorem run_current : (current : InPlace δ δ).run s = (.ok s.drbg, s) := rfl

@[simp] theorem run_change (f : δ → δ) :
    (change f).run s = (.ok (), { s with drbg := f s.drbg }) := rfl

@[simp] theorem run_write (bytes : Bytes) :
    (write bytes : InPlace δ Unit).run s = (.ok (), { s with written := s.written ++ bytes }) := rfl

@[simp] theorem run_require (a : Except Fault α) : (require a : InPlace δ α).run s = (a, s) := rfl

theorem bind_ok {a : α} (h : x.run s = (.ok a, s')) : (x >>= f).run s = (f a).run s' := by
  show (match x.run s with
    | (.error e, s) => ((.error e : Except Fault β), s)
    | (.ok a, s) => (f a).run s) = _
  rw [h]

def landed (w : Bytes) : Except Fault Bytes × δ → Except Fault Unit × Underway δ
  | (.ok out, d) => (.ok (), ⟨d, w ++ out⟩)
  | (.error e, d) => (.error e, ⟨d, w⟩)

theorem bind_error {e : Fault} (h : x.run s = (.error e, s')) :
    (x >>= f).run s = (.error e, s') := by
  show (match x.run s with
    | (.error e, s) => ((.error e : Except Fault β), s)
    | (.ok a, s) => (f a).run s) = _
  rw [h]

end InPlace

namespace CtrDrbg

open CtrStandard

variable {c : BlockCipher}

/-! ## Counter mode -/

def seedThrough (c : BlockCipher) (useDf : Bool) (entropy : Bytes) (extra : List Bytes)
    (direct : Bytes) : Except Fault Bytes :=
  if useDf then CipherContext.derive c (entropy :: extra) (seedLen c)
  else seedMaterial c useDf entropy extra direct

def additionalThrough (d : CtrDrbg c) (additional : Bytes) : Except Fault Bytes :=
  if additional.isEmpty then .ok (Bytes.zeros (seedLen c))
  else if d.useDf then CipherContext.derive c [additional] (seedLen c)
  else toSeedLength c additional

def nextBlock : InPlace (CtrDrbg c) Bytes := do
  InPlace.change fun d => { d with v := nextCounter d.v }
  let d ← InPlace.current
  InPlace.require (d.context.encryptBlock d.v)

def gather : Nat → InPlace (CtrDrbg c) Bytes
  | 0 => return []
  | blocks + 1 => do
    let block ← nextBlock
    let rest ← gather blocks
    return block ++ rest

def updateInPlace (provided : Bytes) : InPlace (CtrDrbg c) Unit := do
  let stream ← gather (ceilDiv (seedLen c) blockLen)
  let temp := Bytes.xor (stream.take (seedLen c)) provided
  InPlace.change fun d => { d with key := temp.take c.keyLen, v := temp.drop c.keyLen }
  let d ← InPlace.current
  let rekeyed ← InPlace.require (d.context.setKey d.key)
  InPlace.change fun d => { d with schedule := rekeyed.schedule.getD #[] }

def fill : Nat → Nat → InPlace (CtrDrbg c) Unit
  | 0, _ => return ()
  | blocks + 1, missing => do
    let block ← nextBlock
    InPlace.write (block.take missing)
    fill blocks (missing - blockLen)

def drawInPlace (conditioned : Bytes) (length : Nat) : InPlace (CtrDrbg c) Unit := do
  fill (ceilDiv length blockLen) length
  updateInPlace conditioned
  InPlace.change fun d => { d with counter := d.counter + 1 }

def callInPlace (additional : Bytes) (length : Nat) : InPlace (CtrDrbg c) Unit := do
  let d ← InPlace.current
  let conditioned ← InPlace.require (d.additionalThrough additional)
  if additional.isEmpty then drawInPlace conditioned length
  else
    updateInPlace conditioned
    drawInPlace conditioned length

def generateInPlace (length : Nat) (additional : Option Bytes) :
    InPlace (CtrDrbg c) Unit := do
  let d ← InPlace.current
  InPlace.require (d.checkRequest length (additional.getD []))
  InPlace.each (callInPlace (additional.getD [])) (Drbg.callLengths length)

def reseedInPlace (entropy : Bytes) (additional : Option Bytes) :
    InPlace (CtrDrbg c) Unit := do
  let d ← InPlace.current
  InPlace.require (Drbg.requireLive d.live)
  InPlace.require (Drbg.requireEntropy d.strict c.keyLen entropy.length)
  let seed ← InPlace.require
    (seedThrough c d.useDf entropy [additional.getD []] (additional.getD []))
  updateInPlace seed
  InPlace.change fun d => { d with counter := 1 }

theorem seedThrough_eq (useDf : Bool) (entropy : Bytes) (extra : List Bytes) (direct : Bytes) :
    seedThrough c useDf entropy extra direct =
      seedMaterial c useDf entropy extra direct := by
  cases useDf with
  | true => exact CipherContext.derive_eq c _ _
  | false => rfl

theorem additionalThrough_eq (d : CtrDrbg c) (additional : Bytes) :
    d.additionalThrough additional = d.additionalMaterial additional := by
  unfold additionalThrough additionalMaterial
  rw [CipherContext.derive_eq]

theorem length_nextCounter {v : Bytes} (hv : v.length = 16) : (nextCounter v).length = 16 := by
  rw [nextCounter_increment v hv, length_increment]

variable {d : CtrDrbg c} {w : Bytes}

theorem run_nextBlock (hv : d.v.length = 16) :
    nextBlock.run ⟨d, w⟩ = (.ok (c.run d.schedule (nextCounter d.v)),
      ⟨{ d with v := nextCounter d.v }, w⟩) := by
  have hblock := @CipherContext.encryptBlock_keyed c d.schedule _ (length_nextCounter hv)
  rw [nextBlock, InPlace.bind_ok (InPlace.run_change _), InPlace.bind_ok InPlace.run_current,
    InPlace.run_require]
  rw [context, hblock]

/-- Blocks gathered one by one are the keystream. -/
theorem run_gather (n : Nat) (hv : d.v.length = 16) :
    (gather n).run ⟨d, w⟩ =
      (.ok (keystream c d.schedule n d.v).1,
        ⟨{ d with v := (keystream c d.schedule n d.v).2 }, w⟩) := by
  induction n generalizing d with
  | zero => rfl
  | succ n ih =>
    rw [gather, InPlace.bind_ok (run_nextBlock hv), InPlace.bind_ok (ih (length_nextCounter hv))]
    rfl

theorem run_fill (n missing : Nat) (hv : d.v.length = 16) :
    (fill n missing).run ⟨d, w⟩ =
      (.ok (), ⟨{ d with v := (keystream c d.schedule n d.v).2 },
        w ++ (keystream c d.schedule n d.v).1.take missing⟩) := by
  induction n generalizing d w missing with
  | zero => simp [fill, keystream]
  | succ n ih =>
    have hblock : (c.run d.schedule (nextCounter d.v)).length = blockLen :=
      c.length_run _ _
    rw [fill, InPlace.bind_ok (run_nextBlock hv), InPlace.bind_ok (InPlace.run_write _),
      ih _ (length_nextCounter hv), keystream]
    show _ = (_, Underway.mk _ (w ++ List.take missing (c.run d.schedule (nextCounter d.v) ++
      (keystream c d.schedule n (nextCounter d.v)).1)))
    rw [List.take_append, hblock, List.append_assoc]

/-- The key that the cipher is given has its length, so the generator never stays with a new key
and an old schedule. -/
theorem Keyed.run_update (hd : Keyed d) {provided : Bytes}
    (hp : provided.length = seedLen c) :
    (updateInPlace provided).run ⟨d, w⟩ = (.ok (), ⟨d.update provided, w⟩) := by
  have hkey : (d.update provided).key.length = c.keyLen := (hd.update hp).1.key_length
  have hset := CipherContext.setKey_fitting d.context (d.update provided).key hkey
  rw [updateInPlace, InPlace.bind_ok (run_gather _ hd.v_length),
    InPlace.bind_ok (InPlace.run_change _), InPlace.bind_ok InPlace.run_current,
    InPlace.bind_ok (congrArg (·, _) hset)]
  rfl

theorem Keyed.run_draw (hd : Keyed d) {m : Bytes} (hm : m.length = seedLen c)
    (length : Nat) :
    (drawInPlace m length).run ⟨d, w⟩ =
      (.ok (), ⟨(d.draw m length).2, w ++ (d.draw m length).1⟩) := by
  rw [drawInPlace, InPlace.bind_ok (run_fill _ _ hd.v_length),
    InPlace.bind_ok ((hd.counted (ceilDiv length blockLen)).run_update hm)]
  rfl

/-- One call, once its additional input has been conditioned. -/
theorem Keyed.run_call (hkey : c.keyLen ≤ 32) (hd : Keyed d) {additional m out : Bytes}
    {d' : CtrDrbg c} {length : Nat} (hm : d.additionalMaterial additional = .ok m)
    (hcall : d.generateCall length additional = .ok (out, d')) :
    (callInPlace additional length).run ⟨d, w⟩ = (.ok (), ⟨d', w ++ out⟩) := by
  have hlen := (additionalMaterial_ok hkey hm).2
  rw [generateCall_draw hm] at hcall
  rw [callInPlace, InPlace.bind_ok InPlace.run_current, additionalThrough_eq,
    InPlace.bind_ok (congrArg (·, _) hm)]
  cases additional with
  | nil =>
    obtain ⟨rfl, rfl⟩ := Prod.mk.inj (Except.ok.inj hcall)
    exact hd.run_draw hlen length
  | cons b bs =>
    obtain ⟨rfl, rfl⟩ := Prod.mk.inj (Except.ok.inj hcall)
    show (updateInPlace m >>= fun _ => drawInPlace m length).run ⟨d, w⟩ = _
    rw [InPlace.bind_ok (hd.run_update hlen)]
    exact (hd.update hlen).1.run_draw hlen length

theorem run_call_refused {additional : Bytes} {e : Fault}
    (hm : d.additionalMaterial additional = .error e) (length : Nat) :
    (callInPlace additional length).run ⟨d, w⟩ = (.error e, ⟨d, w⟩) := by
  rw [callInPlace, InPlace.bind_ok InPlace.run_current, additionalThrough_eq]
  exact InPlace.bind_error (congrArg (·, _) hm)

/-- All calls of a request condition the same additional input, so none is refused after the
first. -/
theorem Keyed.run_calls (hkey : c.keyLen ≤ 32) (hd : Keyed d) {additional m : Bytes}
    (hm : d.additionalMaterial additional = .ok m) (lengths : List Nat) :
    (InPlace.each (callInPlace additional) lengths).run ⟨d, w⟩ =
      InPlace.landed w (generateCalls additional lengths d) := by
  induction lengths generalizing d w with
  | nil => simp [InPlace.each, generateCalls, InPlace.landed]
  | cons length lengths ih =>
    obtain ⟨d', hcall, hkeyed, hdf, -⟩ := generateCall_refines hkey hd hm length
    have hm' : d'.additionalMaterial additional = .ok m := by
      rw [← hm, additionalMaterial, additionalMaterial, hdf]
    obtain ⟨d2, hcalls, -⟩ := generateCalls_refines hkey hkeyed hm' lengths
    rw [InPlace.each, InPlace.bind_ok (hd.run_call hkey hm hcall), ih hkeyed hm', generateCalls,
      hcall]
    simp only [hcalls, InPlace.landed, List.append_assoc]

theorem Keyed.run_generate (hkey : c.keyLen ≤ 32) (hd : Keyed d) (length : Nat)
    (additional : Option Bytes) :
    (generateInPlace length additional).run ⟨d, w⟩ =
      InPlace.landed w (d.generate length additional) := by
  rw [generateInPlace, InPlace.bind_ok InPlace.run_current]
  cases hcheck : d.checkRequest length (additional.getD []) with
  | error e =>
    rw [InPlace.bind_error (InPlace.run_require _), generate]
    simp only [hcheck, InPlace.landed]
  | ok u =>
    rw [InPlace.bind_ok (InPlace.run_require _), generate_served hcheck]
    cases hm : d.additionalMaterial (additional.getD []) with
    | ok m => exact hd.run_calls hkey hm _
    | error e =>
      obtain ⟨first, rest, hlengths⟩ := callLengths_cons length
      rw [hlengths, InPlace.each, InPlace.bind_error (run_call_refused hm first), generateCalls,
        generateCall_error hm]
      rfl

theorem Keyed.run_reseed (hkey : c.keyLen ≤ 32) (hd : Keyed d) (entropy : Bytes)
    (additional : Option Bytes) :
    (reseedInPlace entropy additional).run ⟨d, w⟩ =
      ((d.reseed entropy additional).1, ⟨(d.reseed entropy additional).2, w⟩) := by
  have hadmit : d.admitSeed entropy (additional.getD []) = (do
      Drbg.requireLive d.live
      Drbg.requireEntropy d.strict c.keyLen entropy.length
      seedMaterial c d.useDf entropy [additional.getD []] (additional.getD [])) := rfl
  rw [reseedInPlace, InPlace.bind_ok InPlace.run_current, reseed, hadmit, seedThrough_eq]
  cases hlive : Drbg.requireLive d.live with
  | error e => exact InPlace.bind_error (InPlace.run_require _)
  | ok u =>
    rw [InPlace.bind_ok (InPlace.run_require _)]
    cases hentropy : Drbg.requireEntropy d.strict c.keyLen entropy.length with
    | error e => exact InPlace.bind_error (InPlace.run_require _)
    | ok u =>
      rw [InPlace.bind_ok (InPlace.run_require _)]
      cases hseed : seedMaterial c d.useDf entropy [additional.getD []]
          (additional.getD []) with
      | error e => exact InPlace.bind_error (InPlace.run_require _)
      | ok seed =>
        have hlen := (seedMaterial_ok hkey hseed).2
        rw [InPlace.bind_ok (InPlace.run_require _), InPlace.bind_ok (hd.run_update hlen)]
        rfl

end CtrDrbg

namespace HmacDrbg

variable {H : HashFunction}

/-! ## HMAC -/

def codeInto (d : HmacDrbg H) (room : Nat) (parts : List Bytes) : Except Fault Bytes :=
  match Hmac.writeMac H d.k parts (Bytes.zeros room) with
  | (.error e, _) => .error e
  | (.ok (), code) => .ok code

def advanceInPlace : InPlace (HmacDrbg H) Unit := do
  let d ← InPlace.current
  let next ← InPlace.require (d.codeInto d.v.length [d.v])
  InPlace.change fun d => { d with v := next }

def mixInPlace (round : UInt8) (data : List Bytes) : InPlace (HmacDrbg H) Unit := do
  let d ← InPlace.current
  let next ← InPlace.require (d.codeInto d.k.length ([d.v, [round]] ++ data))
  InPlace.change fun d => { d with k := next }
  advanceInPlace

def updateInPlace (data : List Bytes) : InPlace (HmacDrbg H) Unit := do
  mixInPlace 0x00 data
  if data.any (fun part => !part.isEmpty) then mixInPlace 0x01 data

def fill (size : Nat) : Nat → Nat → InPlace (HmacDrbg H) Unit
  | 0, _ => return ()
  | blocks + 1, missing => do
    advanceInPlace
    let d ← InPlace.current
    InPlace.write (d.v.take missing)
    fill size blocks (missing - size)

def drawInPlace (additional : Bytes) (length : Nat) : InPlace (HmacDrbg H) Unit := do
  let d ← InPlace.current
  fill d.v.length (ceilDiv length d.v.length) length
  updateInPlace [additional]
  InPlace.change fun d => { d with counter := d.counter + 1 }

def callInPlace (additional : Bytes) (length : Nat) : InPlace (HmacDrbg H) Unit :=
  if additional.isEmpty then drawInPlace additional length
  else do
    updateInPlace [additional]
    drawInPlace additional length

def generateInPlace (length : Nat) (additional : Option Bytes) : InPlace (HmacDrbg H) Unit := do
  let d ← InPlace.current
  InPlace.require (d.checkRequest length)
  InPlace.each (callInPlace (additional.getD [])) (Drbg.callLengths length)

def reseedInPlace (entropy : Bytes) (additional : Option Bytes) : InPlace (HmacDrbg H) Unit := do
  let d ← InPlace.current
  InPlace.require (d.admitSeed entropy)
  updateInPlace [entropy, additional.getD []]
  InPlace.change fun d => { d with counter := 1 }

variable {d : HmacDrbg H} {w : Bytes}

/-- A buffer of the digest's size is never too short. -/
theorem codeInto_sized (d : HmacDrbg H) {room : Nat} (hroom : room = H.outputSize)
    (parts : List Bytes) : d.codeInto room parts = .ok (Hmac.macParts H d.k parts) := by
  have haccepted := Hmac.writeMac_accepted H d.k parts (Bytes.zeros room)
    (by rw [Bytes.length_zeros, hroom])
  rw [codeInto, Hmac.macParts, ← hroom]
  generalize Hmac.writeMac H d.k parts (Bytes.zeros room) = written at haccepted
  obtain ⟨outcome, code⟩ := written
  rw [show outcome = .ok () from haccepted]

theorem run_advance (hv : d.v.length = H.outputSize) :
    advanceInPlace.run ⟨d, w⟩ = (.ok (), ⟨d.advance, w⟩) := by
  rw [advanceInPlace, InPlace.bind_ok InPlace.run_current,
    InPlace.bind_ok (congrArg (·, _) (codeInto_sized d hv _))]
  rfl

theorem run_mix (hd : d.Sized) (round : UInt8) (data : List Bytes) :
    (mixInPlace round data).run ⟨d, w⟩ = (.ok (), ⟨d.mix round data, w⟩) := by
  rw [mixInPlace, InPlace.bind_ok InPlace.run_current,
    InPlace.bind_ok (congrArg (·, _) (codeInto_sized d hd.k_length _)),
    InPlace.bind_ok (InPlace.run_change _)]
  exact run_advance hd.v_length

theorem sized_mix (d : HmacDrbg H) (round : UInt8) (data : List Bytes) :
    (d.mix round data).Sized := by
  rw [mix_eq]
  exact ⟨Hmac.length_mac _ _ _, Hmac.length_mac _ _ _⟩

theorem run_update (hd : d.Sized) (data : List Bytes) :
    (updateInPlace data).run ⟨d, w⟩ = (.ok (), ⟨d.update data, w⟩) := by
  rw [updateInPlace, InPlace.bind_ok (run_mix hd 0x00 data), update]
  split
  · exact run_mix (sized_mix d 0x00 data) 0x01 data
  · rfl

theorem sized_update (d : HmacDrbg H) (data : List Bytes) : (d.update data).Sized := by
  rw [update]
  split <;> exact sized_mix _ _ _

theorem sized_advance (hd : d.Sized) : d.advance.Sized := by
  refine ⟨hd.k_length, ?_⟩
  show (Hmac.macParts H d.k [d.v]).length = H.outputSize
  rw [Hmac.macParts_flatten, Hmac.length_mac]

theorem sized_stream (hd : d.Sized) (n : Nat) : (stream n d).2.Sized := by
  induction n generalizing d with
  | zero => exact hd
  | succ n ih => exact ih (sized_advance hd)

theorem run_fill (hd : d.Sized) (n missing : Nat) :
    (fill d.v.length n missing).run ⟨d, w⟩ =
      (.ok (), ⟨(stream n d).2, w ++ (stream n d).1.take missing⟩) := by
  induction n generalizing d w missing with
  | zero => simp [fill, stream]
  | succ n ih =>
    have hnext := sized_advance hd
    have hv : d.advance.v.length = d.v.length := hnext.v_length.trans hd.v_length.symm
    have hrest := @ih d.advance (w ++ d.advance.v.take missing) hnext (missing - d.v.length)
    rw [hv] at hrest
    rw [fill, InPlace.bind_ok (run_advance hd.v_length), InPlace.bind_ok InPlace.run_current,
      InPlace.bind_ok (InPlace.run_write _), hrest]
    show _ = (_, Underway.mk _ (w ++ List.take missing (d.advance.v ++ (stream n d.advance).1)))
    rw [List.take_append, hv, List.append_assoc]
    rfl

def draw (d : HmacDrbg H) (additional : Bytes) (length : Nat) : Bytes × HmacDrbg H :=
  let drawn := stream (ceilDiv length d.v.length) d
  let next := drawn.2.update [additional]
  (drawn.1.take length, { next with counter := next.counter + 1 })

theorem run_draw (hd : d.Sized) (additional : Bytes) (length : Nat) :
    (drawInPlace additional length).run ⟨d, w⟩ =
      (.ok (), ⟨(d.draw additional length).2, w ++ (d.draw additional length).1⟩) := by
  rw [drawInPlace, InPlace.bind_ok InPlace.run_current, InPlace.bind_ok (run_fill hd _ _),
    InPlace.bind_ok (run_update (sized_stream hd _) _)]
  rfl

theorem sized_draw (d : HmacDrbg H) (additional : Bytes) (length : Nat) :
    (d.draw additional length).2.Sized := by
  have h := sized_update (stream (ceilDiv length d.v.length) d).2 [additional]
  exact ⟨h.k_length, h.v_length⟩

theorem generateCall_draw (d : HmacDrbg H) (additional : Bytes) (length : Nat) :
    d.generateCall length additional =
      (if additional.isEmpty then d else d.update [additional]).draw additional length := rfl

theorem run_call (hd : d.Sized) (additional : Bytes) (length : Nat) :
    (callInPlace additional length).run ⟨d, w⟩ =
        (.ok (), ⟨(d.generateCall length additional).2,
          w ++ (d.generateCall length additional).1⟩) ∧
      (d.generateCall length additional).2.Sized := by
  rw [generateCall_draw]
  refine ⟨?_, sized_draw _ additional length⟩
  cases additional with
  | nil => exact run_draw hd [] length
  | cons b bs =>
    rw [if_neg (show ¬(b :: bs).isEmpty = true from Bool.false_ne_true)]
    show (updateInPlace [b :: bs] >>= fun _ => drawInPlace (b :: bs) length).run ⟨d, w⟩ = _
    rw [InPlace.bind_ok (run_update hd _)]
    exact run_draw (sized_update d [b :: bs]) (b :: bs) length

theorem run_calls (hd : d.Sized) (additional : Bytes) (lengths : List Nat) :
    (InPlace.each (callInPlace additional) lengths).run ⟨d, w⟩ =
      (.ok (), ⟨(generateCalls additional lengths d).2,
        w ++ (generateCalls additional lengths d).1⟩) := by
  induction lengths generalizing d w with
  | nil => simp [InPlace.each, generateCalls]
  | cons length lengths ih =>
    obtain ⟨hcall, hnext⟩ := @run_call _ d w hd additional length
    rw [InPlace.each, InPlace.bind_ok hcall, ih hnext, List.append_assoc]
    rfl

theorem Formed.run_generate (hd : Formed d) (length : Nat) (additional : Option Bytes) :
    (generateInPlace length additional).run ⟨d, w⟩ =
      InPlace.landed w (d.generate length additional) := by
  rw [generateInPlace, InPlace.bind_ok InPlace.run_current, generate]
  cases hcheck : d.checkRequest length with
  | error e => exact InPlace.bind_error (InPlace.run_require _)
  | ok u =>
    have hlive : d.live = true := by
      by_contra hdead
      rw [checkRequest, Drbg.requireLive, if_neg hdead] at hcheck
      cases hcheck
    rw [InPlace.bind_ok (InPlace.run_require _)]
    exact run_calls (hd hlive) _ _

theorem Formed.run_reseed (hd : Formed d) (entropy : Bytes) (additional : Option Bytes) :
    (reseedInPlace entropy additional).run ⟨d, w⟩ =
      ((d.reseed entropy additional).1, ⟨(d.reseed entropy additional).2, w⟩) := by
  rw [reseedInPlace, InPlace.bind_ok InPlace.run_current, reseed]
  cases hadmit : d.admitSeed entropy with
  | error e => exact InPlace.bind_error (InPlace.run_require _)
  | ok u =>
    have hlive : d.live = true := ((admitSeed_iff d entropy).mp hadmit).1
    rw [InPlace.bind_ok (InPlace.run_require _),
      InPlace.bind_ok (run_update (hd hlive) _)]
    rfl

end HmacDrbg

end CryptoPrimitives
