import CryptoPrimitives.Recorded
import CryptoPrimitives.Units.Basic

/-!
# Unit buffers and their ledger

A number takes its buffer from an allocator and hands every buffer back. The ledger has an entry
for each buffer taken, with its length, and for each returned, with what it then held. How the
allocators serve a request is a supply of buffers; the one in force unless another is named hands
them out zero-filled. A buffer that is replaced is wiped before it goes back.
-/

set_option autoImplicit false

namespace CryptoPrimitives

inductive Allocator
  | secure
  | pool (id : Nat)
  deriving DecidableEq, Repr

namespace Ledger

inductive Entry
  | taken (owner : Allocator) (length : Nat)
  | returned (owner : Allocator) (buffer : Units)
  deriving DecidableEq, Repr

def takenFrom (owner : Allocator) (entries : List Entry) : List Nat :=
  entries.filterMap fun
    | .taken o length => if o = owner then some length else none
    | .returned _ _ => none

def returnedTo (owner : Allocator) (entries : List Entry) : List Units :=
  entries.filterMap fun
    | .taken _ _ => none
    | .returned o buffer => if o = owner then some buffer else none

end Ledger

abbrev Booked := Recorded Ledger.Entry

/-- The buffers that allocators hand out: for a length, and for a buffer that has to be longer by
some limbs, which is made from a new one unless the allocator knows better. -/
@[ext] class Supply where
  take : Allocator → Nat → Units
  extend : Allocator → Units → Nat → Units := fun owner buffer more =>
    buffer ++ (take owner (buffer.length + more)).drop buffer.length

namespace Supply

instance zeroing : Supply where
  take _ length := Units.zeros length

@[simp] theorem take_zeroing (owner : Allocator) (length : Nat) :
    take owner length = Units.zeros length := rfl

@[simp] theorem extend_zeroing (owner : Allocator) (buffer : Units) (more : Nat) :
    extend owner buffer more = buffer ++ Units.zeros more := by
  change buffer ++ (Units.zeros (buffer.length + more)).drop buffer.length = _
  rw [Units.zeros, List.drop_replicate, Nat.add_sub_cancel_left, Units.zeros]

end Supply

namespace Allocator

def granularity : Nat := 4

def nextCapacity (held need : Nat) : Nat :=
  (max need (held * 2) + granularity - 1) / granularity * granularity

section Requests

variable [Supply]

def take (owner : Allocator) (length : Nat) : Booked Units :=
  ⟨Supply.take owner length, [.taken owner length]⟩

def giveBack (owner : Allocator) (buffer : Units) : Booked Unit :=
  Recorded.note (.returned owner buffer)

def grow (owner : Allocator) (buffer : Units) (length : Nat) : Booked Units := do
  Recorded.note (.taken owner length)
  owner.giveBack (Units.zeros buffer.length)
  return Supply.extend owner buffer (length - buffer.length)

end Requests

end Allocator

end CryptoPrimitives
