import Overload.Trace

/-!
# Engine settings

What an engine traces and what it checks at a typed call. By default it traces nothing and checks
everything.
-/

namespace Overload

structure Settings where
  trace : Switches := {}
  /-- Whether a typed call looks up the instances that its signature asks for. -/
  checkConstraints : Bool := true
  /-- Whether a typed call compares its result with the declared one. -/
  checkResult : Bool := true
  deriving DecidableEq, Repr, Inhabited

/-- The defaults, with all tracing switched on if the environment asks for it. -/
def Settings.ofEnvironment (t : Trace) : Settings :=
  if t.fromEnvironment then { trace := .all } else {}

end Overload
