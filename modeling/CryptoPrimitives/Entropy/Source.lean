import CryptoPrimitives.Bytes
import CryptoPrimitives.Fault
import CryptoPrimitives.LogLine
import CryptoPrimitives.Recorded

/-!
# Sources of entropy and of noise

A source is given a buffer. It writes over the front of it and tells how many bytes it delivered,
or fails; it may write and then fail, and it may claim more than it wrote, in which case bytes that
were in the buffer before count as delivered.
-/

set_option autoImplicit false

namespace CryptoPrimitives

structure Delivery where
  written : Bytes
  outcome : Except Fault Nat

namespace Delivery

def buffer (d : Delivery) (given : Bytes) : Bytes := Bytes.overlay d.written given

end Delivery

class EntropySource (ε : Type) where
  read : ε → Bytes → Recorded LogLine (Delivery × ε)

class NoiseSource (ν : Type) where
  name : ν → String
  minEntropy : ν → Nat
  read : ν → Bytes → Recorded LogLine (Delivery × ν)

/-! ## A function as a source -/

structure CustomEntropy (σ : Type) where
  memory : σ
  call : σ → Bytes → Delivery × σ

instance {σ : Type} : EntropySource (CustomEntropy σ) where
  read source buffer :=
    let (delivery, memory) := source.call source.memory buffer
    pure ({ delivery with outcome := delivery.outcome.map (min · buffer.length) },
      { source with memory })

/-! ## The operating system -/

structure SystemEntropy where
  supply : Nat → UInt8
  drawn : Nat

namespace SystemEntropy

def read (source : SystemEntropy) (buffer : Bytes) : Delivery × SystemEntropy :=
  let bytes := (List.range buffer.length).map fun i => source.supply (source.drawn + i)
  (⟨bytes, .ok buffer.length⟩, { source with drawn := source.drawn + buffer.length })

instance : EntropySource SystemEntropy where
  read source buffer := pure (source.read buffer)

instance : NoiseSource SystemEntropy where
  name _ := "system"
  minEntropy _ := 8
  read source buffer := pure (source.read buffer)

end SystemEntropy

end CryptoPrimitives
