/-!
# Log lines

What the generators report while they work. Lines are data: an operation returns them in order.
-/

set_option autoImplicit false

namespace CryptoPrimitives

inductive LogLevel
  | error
  | warn
  | debug
  | trace
  deriving DecidableEq, Repr

structure LogLine where
  level : LogLevel
  text : String
  deriving DecidableEq, Repr

end CryptoPrimitives
