import CryptoPrimitives.Proofs.Drbg.Atomic

/-!
# A long request and its pieces

A request longer than one call serves looks at the interval once, for all of its calls. Asked for
piece by piece, each request looks for itself. Both lead to the same bytes and the same generator,
except that the long request is refused before its first piece where the pieces would be refused
part way.
-/

set_option autoImplicit false

namespace CryptoPrimitives

namespace Drbg

structure Cut (buffer : Bytes) (pieces : List Bytes) : Prop where
  whole : pieces.flatten = buffer
  lengths : ∃ full rest, pieces.map List.length = List.replicate full maxRequest ++ [rest] ∧
    0 < rest ∧ rest ≤ maxRequest

variable {buffer : Bytes} {pieces : List Bytes}

theorem Cut.single (hpos : 0 < buffer.length) (hlen : buffer.length ≤ maxRequest) :
    Cut buffer [buffer] :=
  ⟨List.flatten_singleton, 0, buffer.length, rfl, hpos, hlen⟩

theorem Cut.cons {piece : Bytes} (hpiece : piece.length = maxRequest) (h : Cut buffer pieces) :
    Cut (piece ++ buffer) (piece :: pieces) := by
  obtain ⟨full, rest, hlengths, hrest⟩ := h.lengths
  refine ⟨by rw [List.flatten_cons, h.whole], full + 1, rest, ?_, hrest⟩
  rw [List.map_cons, hpiece, hlengths, List.replicate_succ, List.cons_append]

theorem cut_chunks (buffer : Bytes) (hpos : 0 < buffer.length) :
    Cut buffer (Bytes.chunks maxRequest buffer) := by
  by_cases hlen : buffer.length ≤ maxRequest
  · have hchunks : Bytes.chunks maxRequest buffer = [buffer] := by
      obtain ⟨b, bs, rfl⟩ := List.exists_cons_of_length_pos hpos
      rw [Bytes.chunks, List.length_cons, Bytes.chunksFrom, List.take_of_length_le hlen,
        List.drop_of_length_le hlen]
      cases bs.length <;> rfl
    rw [hchunks]
    exact .single hpos hlen
  · have hfirst : (buffer.take maxRequest).length = maxRequest :=
      List.length_take_of_le (Nat.le_of_not_le hlen)
    have hrest : 0 < (buffer.drop maxRequest).length := by
      rw [List.length_drop]
      omega
    have hcut := (cut_chunks (buffer.drop maxRequest) hrest).cons hfirst
    rw [← Bytes.chunks_append maxRequest _ _ (by decide) hfirst, List.take_append_drop] at hcut
    exact hcut
termination_by buffer.length
decreasing_by
  rw [List.length_drop]
  exact Nat.sub_lt hpos (by decide)

/-- The pieces are as long as the calls of the request. -/
theorem Cut.callLengths_eq (h : Cut buffer pieces) :
    callLengths buffer.length = pieces.map List.length := by
  obtain ⟨full, rest, hlengths, hpos, hrest⟩ := h.lengths
  have hlen : buffer.length = maxRequest * full + rest := by
    rw [← h.whole, List.length_flatten, hlengths, List.sum_append, List.sum_replicate_nat,
      List.sum_singleton, Nat.mul_comm]
  have hmany : buffer.length ≠ 0 := by omega
  rw [hlengths, callLengths, if_neg hmany, hlen]
  by_cases hwhole : rest = maxRequest
  · rw [hwhole, ← Nat.mul_succ, Nat.mul_div_cancel_left _ (by decide), Nat.mul_mod_right,
      if_pos rfl, List.append_nil, List.replicate_succ']
  · have hshort : rest < maxRequest := Nat.lt_of_le_of_ne hrest hwhole
    rw [Nat.mul_add_div (by decide), Nat.div_eq_of_lt hshort, Nat.mul_add_mod,
      Nat.mod_eq_of_lt hshort, if_neg (Nat.ne_of_gt hpos), Nat.add_zero]

theorem Cut.length_le (h : Cut buffer pieces) : ∀ piece ∈ pieces, piece.length ≤ maxRequest := by
  obtain ⟨full, rest, hlengths, -, hrest⟩ := h.lengths
  intro piece hpiece
  have hmem : piece.length ∈ pieces.map List.length := List.mem_map_of_mem hpiece
  rw [hlengths, List.mem_append, List.mem_singleton] at hmem
  rcases hmem with hfull | hlast
  · exact Nat.le_of_eq (List.eq_of_mem_replicate hfull)
  · exact hlast ▸ hrest

theorem Cut.length_eq (h : Cut buffer pieces) : pieces.length = calls buffer.length := by
  rw [← length_callLengths, h.callLengths_eq, List.length_map]

end Drbg

namespace Generator

def generateEach (additional : Option Bytes) : List Bytes → Generator → Served
  | [], g => ⟨.ok (), g, []⟩
  | piece :: pieces, g =>
    let first := g.generateInto piece additional
    match first.answer with
    | .error e => ⟨.error e, first.drbg, first.buffer ++ pieces.flatten⟩
    | .ok () =>
      let rest := generateEach additional pieces first.drbg
      ⟨rest.answer, rest.drbg, first.buffer ++ rest.buffer⟩

def generateCalls (additional : Bytes) (lengths : List Nat) :
    Generator → Except Fault Bytes × Generator
  | hmac alg d =>
    let (out, d) := HmacDrbg.generateCalls additional lengths d
    (.ok out, hmac alg d)
  | ctr alg d =>
    let (answer, d) := CtrDrbg.generateCalls additional lengths d
    (answer, ctr alg d)

variable {m : Mechanism} {g : Generator}

theorem generateCalls_cons {additional out rest : Bytes} {length : Nat} {lengths : List Nat}
    {g' g'' : Generator} (hfirst : g.generateCalls additional [length] = (.ok out, g'))
    (hrest : g'.generateCalls additional lengths = (.ok rest, g'')) :
    g.generateCalls additional (length :: lengths) = (.ok (out ++ rest), g'') := by
  cases g with
  | hmac alg d =>
    simp only [generateCalls, HmacDrbg.generateCalls, List.append_nil, Prod.mk.injEq,
      Except.ok.injEq] at hfirst
    obtain ⟨rfl, rfl⟩ := hfirst
    simp only [generateCalls, Prod.mk.injEq, Except.ok.injEq] at hrest
    simp only [generateCalls, HmacDrbg.generateCalls, hrest]
  | ctr alg d =>
    simp only [generateCalls, CtrDrbg.generateCalls] at hfirst
    cases hcall : d.generateCall length additional with
    | error e =>
      rw [hcall] at hfirst
      cases hfirst
    | ok made =>
      obtain ⟨bytes, d'⟩ := made
      rw [hcall] at hfirst
      simp only [List.append_nil, Prod.mk.injEq, Except.ok.injEq] at hfirst
      obtain ⟨rfl, rfl⟩ := hfirst
      simp only [generateCalls, Prod.mk.injEq] at hrest
      obtain ⟨hbytes, rfl⟩ := hrest
      have hlater : CtrDrbg.generateCalls additional lengths d' = (.ok rest, _) :=
        Prod.ext hbytes rfl
      simp only [generateCalls, CtrDrbg.generateCalls, hcall]
      rw [hlater]

/-- A request that passes the checks is its calls. -/
theorem generate_accepted (hg : Fits m g) {length : Nat} {additional : Option Bytes}
    (hcheck : g.status.check length = .ok ()) (ha : m.TakesAdditional (additional.getD [])) :
    g.generate length additional =
      g.generateCalls (additional.getD []) (Drbg.callLengths length) := by
  cases m <;> cases g <;> simp only [Fits] at hg
  · rename_i digest strict interval d
    have hrequest : d.checkRequest length = .ok () := hcheck
    simp only [generate, HmacDrbg.generate, hrequest, generateCalls]
  · rename_i cipher useDf strict interval alg d
    obtain ⟨rfl, rfl, -, -⟩ := hg
    have hrequest := CtrDrbg.checkRequest_taken hcheck ha
    simp only [generate, CtrDrbg.generate_served hrequest, generateCalls]

/-! ## One piece -/

structure Ready (m : Mechanism) (additional : Option Bytes) (g : Generator) : Prop where
  reaches : m.Reaches g
  live : g.status.live = true
  lenient : m.strict = false
  interval : m.reseedInterval.toNat < 2 ^ 64 - 1
  takes : m.TakesAdditional (additional.getD [])

variable {additional : Option Bytes}

/-- A request is refused only for the interval, and only if its last call would start past it. -/
theorem Ready.check (hg : Ready m additional g) {length : Nat} (hlen : length < 2 ^ 64) :
    g.status.check length =
      if m.reseedInterval.toNat < g.status.counter.toNat + (Drbg.calls length - 1) then
        .error .drbgReseedRequired
      else .ok () := by
  obtain ⟨hstrict, hinterval⟩ := (reaches_fits hg.reaches).status_eq
  have htakes : g.status.Takes length := by
    rw [DrbgStatus.takes_iff, hstrict, hg.lenient]
    exact ⟨hg.live, fun h => absurd h Bool.false_ne_true⟩
  have hexceeds : Drbg.Exceeds g.status.counter g.status.interval length ↔
      m.reseedInterval.toNat < g.status.counter.toNat + (Drbg.calls length - 1) := by
    have hI := hg.interval
    rw [Drbg.Exceeds, hinterval]
    omega
  rcases htakes.check hlen with ⟨hover, hcheck⟩ | ⟨hwithin, hcheck⟩
  · rw [hcheck, if_pos (hexceeds.mp hover)]
  · rw [hcheck, if_neg (fun h => hwithin (hexceeds.mpr h))]

theorem Ready.refused (hg : Ready m additional g) {buffer : Bytes} (hlen : buffer.length < 2 ^ 64)
    (hover : m.reseedInterval.toNat < g.status.counter.toNat + (Drbg.calls buffer.length - 1)) :
    g.generateInto buffer additional = ⟨.error .drbgReseedRequired, g, buffer⟩ := by
  have hcheck := hg.check hlen
  rw [if_pos hover] at hcheck
  rw [generateInto_eq hg.reaches]
  have hgenerated := (reaches_fits hg.reaches).generated buffer.length additional
  generalize g.generate buffer.length additional = both at hgenerated
  cases hgenerated with
  | refused h =>
    rw [hcheck] at h
    cases h
    rfl
  | unfit h ha => exact absurd hg.takes ha
  | served h =>
    rw [hcheck] at h
    cases h

theorem Ready.served (hg : Ready m additional g) {buffer : Bytes} (hlen : buffer.length < 2 ^ 64)
    (hwithin : g.status.counter.toNat + (Drbg.calls buffer.length - 1) ≤ m.reseedInterval.toNat) :
    ∃ out g', g.generateCalls (additional.getD []) (Drbg.callLengths buffer.length) =
        (.ok out, g') ∧
      g.generateInto buffer additional = ⟨.ok (), g', out⟩ ∧ Ready m additional g' ∧
      g'.status = g.status.counted (Drbg.calls buffer.length) := by
  have hcheck := hg.check hlen
  rw [if_neg (Nat.not_lt.mpr hwithin)] at hcheck
  have hfits := reaches_fits hg.reaches
  have hnext : m.Reaches (Drbg.answer g (.generate buffer.length additional)).2 :=
    .answer _ hg.reaches
  rw [generateInto_eq hg.reaches, ← generate_accepted hfits hcheck hg.takes]
  change m.Reaches (g.generate buffer.length additional).2 at hnext
  have hgenerated := hfits.generated buffer.length additional
  generalize g.generate buffer.length additional = both at hgenerated hnext
  cases hgenerated with
  | refused h =>
    rw [hcheck] at h
    cases h
  | unfit h ha => exact absurd hg.takes ha
  | served h ha hout hg' hs =>
    refine ⟨_, _, rfl, rfl, ⟨hnext, ?_, hg.lenient, hg.interval, hg.takes⟩, hs⟩
    rw [hs, DrbgStatus.counted_live]
    exact hg.live

/-- A piece is one call, and the counter does not wrap over it. -/
theorem Ready.piece_served (hg : Ready m additional g) {piece : Bytes}
    (hpiece : piece.length ≤ Drbg.maxRequest)
    (hwithin : g.status.counter.toNat ≤ m.reseedInterval.toNat) :
    ∃ out g', g.generateCalls (additional.getD []) [piece.length] = (.ok out, g') ∧
      g.generateInto piece additional = ⟨.ok (), g', out⟩ ∧ Ready m additional g' ∧
      g'.status.counter.toNat = g.status.counter.toNat + 1 := by
  have hcalls := Drbg.calls_single hpiece
  obtain ⟨out, g', hmade, hinto, hready, hstatus⟩ :=
    hg.served (Nat.lt_of_le_of_lt hpiece (by decide)) (by rw [hcalls]; exact hwithin)
  rw [CtrDrbg.callLengths_single hpiece] at hmade
  refine ⟨out, g', hmade, hinto, hready, ?_⟩
  have hI := hg.interval
  rw [hstatus, hcalls, DrbgStatus.counted_toNat _ _ (by omega)]

/-! ## All pieces -/

/-- Within the interval every piece is served, as the calls of one request are. -/
theorem Ready.each_served (pieces : List Bytes) (hg : Ready m additional g)
    (hpieces : ∀ piece ∈ pieces, piece.length ≤ Drbg.maxRequest)
    (hwithin : g.status.counter.toNat + pieces.length ≤ m.reseedInterval.toNat + 1) :
    ∃ out g', g.generateCalls (additional.getD []) (pieces.map List.length) = (.ok out, g') ∧
      g.generateEach additional pieces = ⟨.ok (), g', out⟩ := by
  induction pieces generalizing g with
  | nil => exact ⟨[], g, by cases g <;> rfl, rfl⟩
  | cons piece pieces ih =>
    rw [List.length_cons] at hwithin
    obtain ⟨out, g', hmade, hinto, hready, hcounter⟩ :=
      hg.piece_served (hpieces piece List.mem_cons_self) (by omega)
    obtain ⟨rest, g'', hlater, heach⟩ :=
      ih hready (fun p hp => hpieces p (List.mem_cons_of_mem _ hp)) (by omega)
    refine ⟨out ++ rest, g'', generateCalls_cons hmade hlater, ?_⟩
    simp only [generateEach, hinto, heach]

/-- Past the interval some piece is refused, be it the last one. -/
theorem Ready.each_refused (pieces : List Bytes) (hg : Ready m additional g)
    (hpieces : ∀ piece ∈ pieces, piece.length ≤ Drbg.maxRequest) (hsome : pieces ≠ [])
    (hover : m.reseedInterval.toNat + 1 < g.status.counter.toNat + pieces.length) :
    (g.generateEach additional pieces).answer = .error .drbgReseedRequired := by
  induction pieces generalizing g with
  | nil => exact absurd rfl hsome
  | cons piece pieces ih =>
    have hpiece := hpieces piece List.mem_cons_self
    rw [List.length_cons] at hover
    by_cases hwithin : g.status.counter.toNat ≤ m.reseedInterval.toNat
    · obtain ⟨out, g', -, hinto, hready, hcounter⟩ := hg.piece_served hpiece hwithin
      have hmore : pieces ≠ [] := by
        rintro rfl
        rw [List.length_nil] at hover
        omega
      simp only [generateEach, hinto]
      exact ih hready (fun p hp => hpieces p (List.mem_cons_of_mem _ hp)) hmore (by omega)
    · have hinto := hg.refused (Nat.lt_of_le_of_lt hpiece (by decide))
        (by rw [Drbg.calls_single hpiece]; exact Nat.lt_of_not_le hwithin)
      simp only [generateEach, hinto]

/-- Outside strict mode a request longer than one call serves is what separate requests for full
calls and the rest are, with the same additional input: the same bytes and the same generator. If
one of these would be refused, the long request is refused before anything happens. -/
theorem long_request_is_its_pieces (m : Mechanism) (hstrict : m.strict = false)
    (hI : m.reseedInterval.toNat < 2 ^ 64 - 1) (g : Generator) (hg : m.Reaches g)
    (hlive : g.status.live = true) (additional : Option Bytes)
    (ha : m.TakesAdditional (additional.getD [])) (buffer : Bytes)
    (hlong : 65536 < buffer.length) (hlen : buffer.length < 2 ^ 64) :
    let pieces := Bytes.chunks 65536 buffer
    let whole := g.generateInto buffer additional
    let each := g.generateEach additional pieces
    Drbg.Cut buffer pieces ∧
      whole = delivered buffer (g.generate buffer.length additional) ∧
      (whole.answer = .ok () ↔ each.answer = .ok ()) ∧
      (each.answer = .ok () → whole = each) ∧
      ∀ e, each.answer = .error e →
        e = .drbgReseedRequired ∧ whole = ⟨.error .drbgReseedRequired, g, buffer⟩ := by
  intro pieces whole each
  have hcut : Drbg.Cut buffer pieces := Drbg.cut_chunks buffer (Nat.zero_lt_of_lt hlong)
  have hready : Ready m additional g := ⟨hg, hlive, hstrict, hI, ha⟩
  have hmany := hcut.length_eq
  have hone : 1 ≤ Drbg.calls buffer.length := Nat.le_max_left _ _
  refine ⟨hcut, generateInto_eq hg buffer additional, ?_⟩
  by_cases hwithin :
      g.status.counter.toNat + (Drbg.calls buffer.length - 1) ≤ m.reseedInterval.toNat
  · obtain ⟨out, g', hmade, hwhole, -, -⟩ := hready.served hlen hwithin
    obtain ⟨out', g'', hmade', heach⟩ := hready.each_served pieces hcut.length_le (by omega)
    rw [hcut.callLengths_eq, hmade'] at hmade
    cases hmade
    have hsame : whole = each := hwhole.trans heach.symm
    rw [hsame, show each = _ from heach]
    exact ⟨Iff.rfl, fun _ => rfl, fun e h => by cases h⟩
  · have hwhole : whole = _ := hready.refused hlen (Nat.lt_of_not_le hwithin)
    have hsome : pieces ≠ [] := by
      intro hnone
      rw [hnone, List.length_nil] at hmany
      omega
    have heach : each.answer = _ := hready.each_refused pieces hcut.length_le hsome (by omega)
    rw [hwhole, heach]
    refine ⟨by simp, by simp, fun e h => ?_⟩
    cases h
    exact ⟨rfl, rfl⟩

/-- With an interval of two calls a request of two is served and one of three is refused, as its
last piece would be. -/
theorem long_request_is_its_pieces_two :
    ∃ g, (Mechanism.hmac .sha256 false 2).build (Bytes.zeros 32) [] [] = .ok g ∧
      g.generateInto (List.replicate 65537 7) none =
        g.generateEach none (Bytes.chunks 65536 (List.replicate 65537 7)) ∧
      (g.generateEach none (Bytes.chunks 65536 (List.replicate 131073 7))).answer =
        .error .drbgReseedRequired ∧
      g.generateInto (List.replicate 131073 7) none =
        ⟨.error .drbgReseedRequired, g, List.replicate 131073 7⟩ := by
  obtain ⟨g, hmade⟩ :
      ∃ g, (Mechanism.hmac .sha256 false 2).build (Bytes.zeros 32) [] [] = .ok g := ⟨_, rfl⟩
  obtain ⟨-, hstatus⟩ := Mechanism.build_fits hmade
  have hlive : g.status.live = true := by rw [hstatus]
  have hcounter : g.status.counter.toNat = 1 := by
    rw [hstatus]
    rfl
  have hreaches : (Mechanism.hmac .sha256 false 2).Reaches g := .made ⟨_, _, _, hmade⟩
  have hready : Ready _ none g := ⟨hreaches, hlive, rfl, by decide, trivial⟩
  have hpieces : ∀ buffer : Bytes, 65536 < buffer.length → buffer.length < 2 ^ 64 → _ :=
    long_request_is_its_pieces _ rfl (by decide) g hreaches hlive none trivial
  refine ⟨g, hmade, ?two, ?three⟩
  case two =>
    have hlen : (List.replicate 65537 (7 : UInt8)).length = 65537 := List.length_replicate
    have hword : (List.replicate 65537 (7 : UInt8)).length < 2 ^ 64 := by rw [hlen]; decide
    obtain ⟨-, -, hsame, hserved, -⟩ := hpieces _ (by rw [hlen]; decide) hword
    obtain ⟨out, g', -, hinto, -⟩ := hready.served hword (by rw [hlen, hcounter]; decide)
    exact hserved (hsame.mp (by rw [hinto]))
  case three =>
    have hlen : (List.replicate 131073 (7 : UInt8)).length = 131073 := List.length_replicate
    have hword : (List.replicate 131073 (7 : UInt8)).length < 2 ^ 64 := by rw [hlen]; decide
    obtain ⟨-, -, hsame, -, hrefused⟩ := hpieces _ (by rw [hlen]; decide) hword
    have hinto := hready.refused hword (by rw [hlen, hcounter]; decide)
    generalize (generateEach none (Bytes.chunks 65536 (List.replicate 131073 7)) g).answer = answer
      at hsame hrefused ⊢
    cases answer with
    | ok u =>
      rw [hinto] at hsame
      cases hsame.mpr rfl
    | error e =>
      obtain ⟨rfl, hwhole⟩ := hrefused e rfl
      exact ⟨rfl, hwhole⟩

end Generator

end CryptoPrimitives
