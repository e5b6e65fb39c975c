import Overload.Classes.Registry
import Overload.Inference.Session

/-!
# Faults

What can go wrong when a program runs: the errors of inference and of class look-ups, and those
of calls.
-/

namespace Overload

inductive Fault where
  | type (e : TypeError)
  | cls (e : ClassError)
  | arity (expected found : Nat)
  | notCallable (value : String)
  | message (text : String)
  /-- More calls are nested than an engine allows. -/
  | tooDeep
  deriving DecidableEq, Repr

def Fault.describe : Fault → String
  | .type e => e.message
  | .cls e => e.message
  | .arity expected found => s!"arity mismatch: expected {expected} argument(s), got {found}"
  | .notCallable value => s!"attempted to call a non-function: {value}"
  | .message text => text
  | .tooDeep => "calls are nested too deeply"

end Overload
