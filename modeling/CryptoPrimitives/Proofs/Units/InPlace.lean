import CryptoPrimitives.Proofs.Limb.Renditions
import CryptoPrimitives.Proofs.Units.Access

/-!
# The operations in place

Each operation on stated lengths as it goes about its work: it checks what it is handed, takes the
slices, and then walks them limb by limb, one limb of the destination after the other. Some call
others on a part of an operand, which check what they are handed in their turn. No arithmetic is
taken for granted: a sum, a product, a shift or a quotient that leaves its limb would stop it.
-/

set_option autoImplicit false

namespace CryptoPrimitives

/-! ## Arithmetic that may leave a limb -/

namespace Limb

def shiftLeftWithin (u : Limb) (k : Nat) : Option Limb :=
  if k < 64 then some (u <<< k.toUInt64) else none

def shiftRightWithin (u : Limb) (k : Nat) : Option Limb :=
  if k < 64 then some (u >>> k.toUInt64) else none

def divWithin (hi lo d : Limb) : Option (Limb × Limb) :=
  if hi < d then some (divDouble hi lo d) else none

end Limb

namespace Units.InPlace

open Access

variable {α γ : Type}

/-! ## Walks -/

def upward (step : Nat → γ → Access γ) : Nat → Nat → γ → Access γ
  | 0, _, c => return c
  | n + 1, i, c => do
    let c ← step i c
    upward step n (i + 1) c

def downward (step : Nat → γ → Access γ) : Nat → Nat → γ → Access γ
  | 0, _, c => return c
  | n + 1, i, c => do
    let c ← downward step n (i + 1) c
    step i c

def replace (r : Operand) (read : Nat → Access α) (f : Limb → α → γ → Option (Limb × γ))
    (i : Nat) (c : γ) : Access γ := do
  let held ← load r i
  let given ← read i
  let next ← fitting (f held given c)
  store r i next.1
  return next.2

def visit (read : Nat → Access α) (f : Nat → α → γ → γ) (i : Nat) (c : γ) : Access γ := do
  let given ← read i
  return f i given c

def pair (s t : Operand) (i : Nat) : Access (Limb × Limb) := do
  let u ← load s i
  let v ← load t i
  return (u, v)

def nothing (_ : Nat) : Access Unit := return ()

/-! ## Families -/

def along (n : Nat) (r : Operand) (name : String) (s : Operand)
    (f : Limb → Limb → γ → Option (Limb × γ)) (c : γ) : Access γ :=
  guarded [.holds "r" r n, .holds name s n] do
    front r n
    front s n
    upward (replace r (load s) f) n 0 c

def across (n : Nat) (r s t : Operand) (f : Limb → Limb → γ → Option (Limb × γ)) (c : γ) :
    Access γ :=
  guarded [.holds "r" r n, .holds "s" s n, .holds "t" t n] do
    front r n
    front s n
    front t n
    upward (replace r (pair s t) fun _ given => f given.1 given.2) n 0 c

def measure (n : Nat) (s : Operand) (f : Nat → Limb → γ → γ) (c : γ) : Access γ :=
  guarded [.holds "s" s n] do
    front s n
    upward (visit (load s) f) n 0 c

/-! ## Moves -/

def set (n : Nat) (r s : Operand) : Access Unit :=
  along n r "s" s (fun _ u _ => some (u, ())) ()

def zero (n : Nat) (r : Operand) : Access Unit :=
  guarded [.holds "r" r n] do
    front r n
    upward (replace r nothing fun _ _ _ => some (0, ())) n 0 ()

def setWithin (n : Nat) (r : Operand) (ns : Nat) (s : Operand) : Access Unit :=
  guarded [.demand (ns ≤ n) (.sourceTooLong ns n), .holds "r" r n] do
    set ns r s
    beyond r ns (zero (n - ns) r)

def assignIf (n : Nat) (r s : Operand) (choice : Bool) : Access Unit :=
  along n r "s" s (fun held u _ => some (Limb.choose choice held u, ())) ()

def exchange (a b : Operand) (choice : Bool) (i : Nat) (_ : Unit) : Access Unit := do
  let u ← load a i
  let v ← load b i
  store a i (Limb.swap choice u v).1
  store b i (Limb.swap choice u v).2

def swapIf (n : Nat) (a b : Operand) (choice : Bool) : Access Unit :=
  guarded [.holds "a" a n, .holds "b" b n] do
    front a n
    front b n
    upward (exchange a b choice) n 0 ()

def shiftLeft (n : Nat) (r : Operand) (k : Nat) : Access Limb :=
  guarded [.demand (k < Limb.bits) (.shiftTooFar k), .holds "r" r n] do
    if k = 0 then return 0
    front r n
    upward (replace r nothing fun u _ carry => do
      let moved ← Limb.shiftLeftWithin u k
      let out ← Limb.shiftRightWithin u (64 - k)
      return (moved ||| carry, out)) n 0 0

def shiftRight (n : Nat) (r : Operand) (k : Nat) : Access Limb :=
  guarded [.demand (k < Limb.bits) (.shiftTooFar k), .holds "r" r n] do
    if k = 0 then return 0
    front r n
    downward (replace r nothing fun u _ carry => do
      let moved ← Limb.shiftRightWithin u k
      let out ← Limb.shiftLeftWithin u (64 - k)
      return (moved ||| carry, out)) n 0 0

/-! ## Measures -/

def settle (_ : Nat) (given : Limb × Limb) (verdict : Ordering) : Ordering :=
  if given.1 < given.2 then .lt else if given.2 < given.1 then .gt else verdict

def countTo (i : Nat) (u : Limb) (count : Nat) : Nat :=
  if Limb.isNonzero u then i + 1 else count

def bitsTo (i : Nat) (u : Limb) (bits : Nat) : Nat :=
  if Limb.isNonzero u then i * Limb.bits + Limb.bitLength u else bits

def compare (n : Nat) (s t : Operand) : Access Ordering :=
  guarded [.holds "s" s n, .holds "t" t n] do
    front s n
    front t n
    upward (visit (pair s t) settle) n 0 .eq

def isZero (n : Nat) (s : Operand) : Access Bool :=
  guarded [.holds "s" s n] do
    front s n
    let all ← upward (visit (load s) fun _ u all => all ||| u) n 0 0
    return all == 0

def compareUneven (ns : Nat) (s : Operand) (nt : Nat) (t : Operand) : Access Ordering :=
  guarded [.holds "s" s ns, .holds "t" t nt] do
    if ns ≤ nt then
      let low ← compare ns s t
      let blank ← within t ns nt (isZero (nt - ns) t)
      return if blank then low else .lt
    else
      let low ← compare nt s t
      let blank ← within s nt ns (isZero (ns - nt) s)
      return if blank then low else .gt

def significant (n : Nat) (s : Operand) : Access Nat := measure n s countTo 0

def bitLength (n : Nat) (s : Operand) : Access Nat := measure n s bitsTo 0

/-! ## Arithmetic -/

section Arithmetic

variable [Rendition]

def add (n : Nat) (r s t : Operand) : Access Limb := across n r s t Limb.adcWithin 0

def sub (n : Nat) (r s t : Operand) : Access Limb := across n r s t Limb.sbbWithin 0

def addOnto (n : Nat) (r t : Operand) : Access Limb := along n r "t" t Limb.adcWithin 0

def subFrom (n : Nat) (r t : Operand) : Access Limb := along n r "t" t Limb.sbbWithin 0

def addLimb (n : Nat) (r s : Operand) (v : Limb) : Access Limb :=
  along n r "s" s (fun _ u carry => Limb.adcWithin u carry 0) v

def subLimb (n : Nat) (r s : Operand) (v : Limb) : Access Limb :=
  along n r "s" s (fun _ u borrow => Limb.sbbWithin u borrow 0) v

def mulLimb (n : Nat) (r s : Operand) (v : Limb) : Access Limb :=
  along n r "s" s (fun _ u carry => Limb.macWithin u v 0 carry) 0

def addMulLimb (n : Nat) (r s : Operand) (v : Limb) : Access Limb :=
  along n r "s" s (fun held u carry => Limb.macWithin u v held carry) 0

def row (r s : Operand) (nt : Nat) (t : Operand) (i : Nat) (_ : Unit) : Access Unit := do
  let u ← load s i
  let top ← beyond r i (addMulLimb nt r t u)
  store r (i + nt) top

def mulLengths (r : Operand) (ns : Nat) (s : Operand) (nt : Nat) (t : Operand) : Access Unit :=
  guarded [.holds "r" r (ns + nt), .holds "s" s ns, .holds "t" t nt] do
    zero (ns + nt) r
    front s ns
    upward (row r s nt t) ns 0 ()

def mul (n : Nat) (r s t : Operand) : Access Unit := mulLengths r n s n t

def divLimb (n : Nat) (q s : Operand) (d : Limb) : Access Limb :=
  guarded [.demand (d != 0) .zeroDivisor, .holds "q" q n, .holds "s" s n] do
    downward (replace q (load s) fun _ u rem => Limb.divWithin rem u d) n 0 0

end Arithmetic

end Units.InPlace

end CryptoPrimitives
