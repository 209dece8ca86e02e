/-!
# Reseed policies

A policy is asked before every step of a request whether fresh entropy is due, and is told of every
reseed that succeeded.
-/

set_option autoImplicit false

namespace CryptoPrimitives

class Policy (π : Type) where
  due : π → Bool × π
  completed : π → π

structure Policy.Never where
  deriving DecidableEq, Repr

instance : Policy Policy.Never where
  due p := (false, p)
  completed p := p

structure Policy.Counter where
  every : UInt64
  steps : UInt64
  deriving DecidableEq, Repr

namespace Policy.Counter

def create (every : UInt64) : Policy.Counter := ⟨max every 1, 0⟩

instance : Policy Policy.Counter where
  due p :=
    if p.every ≤ p.steps then (true, p) else (false, { p with steps := p.steps + 1 })
  completed p := { p with steps := 0 }

end Policy.Counter

structure Policy.Timer where
  interval : Nat
  last : Nat
  now : Nat
  deriving DecidableEq, Repr

namespace Policy.Timer

def create (interval now : Nat) : Policy.Timer := ⟨interval, now, now⟩

instance : Policy Policy.Timer where
  due p := (p.interval ≤ p.now - p.last, p)
  completed p := { p with last := p.now }

end Policy.Timer

structure Policy.Custom (σ : Type) where
  memory : σ
  need : σ → Bool × σ
  complete : σ → σ

instance {σ : Type} : Policy (Policy.Custom σ) where
  due p :=
    let (due, memory) := p.need p.memory
    (due, { p with memory })
  completed p := { p with memory := p.complete p.memory }

end CryptoPrimitives
