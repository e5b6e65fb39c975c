/-!
# Tracing

What a session reports about its own work. Four concerns can be switched on one by one. Which
switches count at a moment is decided in this order: the forced ones, those of the innermost
engine operation in progress, and outside any operation the environment, which switches on
everything or nothing.

A report that is switched on is always recorded, as by a listener that takes everything. The types
in it are rendered for that, which may give names to their variables.
-/

namespace Overload

inductive Concern where
  | unify
  | calls
  | dispatch
  | registry
  deriving DecidableEq, Repr

structure Switches where
  unify : Bool := false
  calls : Bool := false
  dispatch : Bool := false
  registry : Bool := false
  deriving DecidableEq, Repr, Inhabited

namespace Switches

def all : Switches := ⟨true, true, true, true⟩

def covers (s : Switches) : Concern → Bool
  | .unify => s.unify
  | .calls => s.calls
  | .dispatch => s.dispatch
  | .registry => s.registry

end Switches

/-- One report. Types in it are already rendered. -/
inductive Event where
  | unify (left right : String)
  | registered (className typeName : String)
  | partialCall (func : String) (bound arity : Nat)
  | applied (func ret : String)
  | dispatched (method typeName : String)
  deriving DecidableEq, Repr

structure Trace where
  forced : Option Switches := none
  /-- The switches of the innermost engine operation in progress. -/
  active : Option Switches := none
  /-- The value of the environment's trace setting, if it has one. -/
  setting : Option String := none
  /-- The reports so far, oldest first. -/
  events : Array Event := #[]
  deriving Inhabited

namespace Trace

/-- Whether the environment asks for tracing. -/
def fromEnvironment (t : Trace) : Bool := t.setting == some "1"

def enabled (t : Trace) (c : Concern) : Bool :=
  match t.forced <|> t.active with
  | some switches => switches.covers c
  | none => t.fromEnvironment

def push (t : Trace) (e : Event) : Trace := { t with events := t.events.push e }

end Trace

end Overload
