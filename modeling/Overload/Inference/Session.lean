import Overload.Types.Text
import Overload.Trace

/-!
# Inference sessions

The state that inference works on, and the computations over it. A computation that fails keeps
what it changed: variables linked before the failure stay linked, allocated ones stay allocated,
and names stay handed out.
-/

namespace Overload

inductive TypeError where
  | mismatch (expected found : String)
  /-- A variable would have to stand for a term that contains it. -/
  | recursive (var ty : String)
  | undefined (name : String)
  /-- The walk ran past the bound: the store has a cycle. -/
  | cyclic
  deriving DecidableEq, Repr

def TypeError.message : TypeError → String
  | .mismatch expected found => s!"type mismatch: {expected} vs {found}"
  | .recursive var ty => s!"recursive unification: {var} occurs in {ty}"
  | .undefined name => s!"undefined symbol '{name}'"
  | .cyclic => "cyclic type"

structure Session where
  store : Store := {}
  trace : Trace := {}
  /-- How many type constructors have been declared. -/
  declared : Nat := 0
  deriving Inhabited

abbrev Infer := EStateM TypeError Session

instance : MonadLift StoreM Infer where
  monadLift act σ :=
    let (a, store) := act σ.store
    .ok a { σ with store }

namespace Session

def emit (σ : Session) (e : Event) : Session := { σ with trace := σ.trace.push e }

/-- A new type constructor, with a number that no other one has. -/
def declareCon (name : String) : StateM Session TypeCon := modifyGet fun σ =>
  (.declared σ.declared name, { σ with declared := σ.declared + 1 })

end Session

end Overload
