/-!
# Computations with a record

`Recorded ε α` is a value together with the entries noted while it was computed, in order. It
carries the buffer ledger of the numbers and the log lines of the generators.
-/

set_option autoImplicit false

namespace CryptoPrimitives

structure Recorded (ε α : Type) where
  val : α
  entries : List ε

namespace Recorded

variable {ε α β : Type}

instance : Monad (Recorded ε) where
  pure a := ⟨a, []⟩
  bind x f := ⟨(f x.val).val, x.entries ++ (f x.val).entries⟩

def note (e : ε) : Recorded ε Unit := ⟨(), [e]⟩

@[simp] theorem val_pure (a : α) : (pure a : Recorded ε α).val = a := rfl

@[simp] theorem entries_pure (a : α) : (pure a : Recorded ε α).entries = [] := rfl

@[simp] theorem val_bind (x : Recorded ε α) (f : α → Recorded ε β) :
    (x >>= f).val = (f x.val).val := rfl

@[simp] theorem entries_bind (x : Recorded ε α) (f : α → Recorded ε β) :
    (x >>= f).entries = x.entries ++ (f x.val).entries := rfl

@[ext] theorem ext {x y : Recorded ε α} (hv : x.val = y.val) (he : x.entries = y.entries) :
    x = y := by
  cases x; cases y; simp_all

end Recorded

end CryptoPrimitives
