import Overload.Classes.Build
import Overload.Engine.Fault
import Overload.Settings.Basic
import Overload.Values.Typing

/-!
# Engines

An engine is a supply of type variables, a registry and settings. Engines work on a machine: one
session of inference, with a record of what is going on in it. While an engine carries out an
operation its trace switches count (`Engine.traced`), and it cannot be entered a second time
from outside (`Engine.occupied`). Both end with the operation, whether it succeeds or fails.
-/

namespace Overload

structure Engine where
  /-- The name by which host functions find the engine. -/
  name : String
  supply : SupplyId
  registry : Registry
  settings : Settings := {}

structure Machine where
  session : Session := {}
  /-- The engines in the middle of an operation, innermost first. -/
  running : List String := []
  /-- The runs of host functions and derivers so far, oldest first. -/
  log : Array Invocation := #[]

namespace Machine

def setActive (m : Machine) (active : Option Switches) : Machine :=
  { m with session.trace.active := active }

def enabled (m : Machine) (c : Concern) : Bool := m.session.trace.enabled c

end Machine

/-- Computations of a machine. As in a session, a failure keeps what was changed before it. -/
abbrev Run := EStateM Fault Machine

instance : MonadLift Infer Run where
  monadLift act m :=
    match act m.session with
    | .ok a session => .ok a { m with session }
    | .error e session => .error (.type e) { m with session }

instance : MonadLift (Except ClassError) Run where
  monadLift
    | .ok a => return a
    | .error e => throw (.cls e)

instance : MonadLift (Except Fault) Run where
  monadLift
    | .ok a => return a
    | .error e => throw e

namespace Run

/-- Reports an event if its concern is switched on. -/
def report (c : Concern) (e : Event) : Run Unit :=
  modify fun m => if m.enabled c then { m with session := m.session.emit e } else m

/-- Logs the run of a host function. -/
def logCall (name : String) : Run Unit :=
  modify fun m => { m with log := m.log.push (.call name) }

/-- Always succeeds, with the outcome of the computation. -/
def observe (act : Run α) : Run (Except Fault α) := fun m =>
  match act m with
  | .ok a m => .ok (.ok a) m
  | .error f m => .ok (.error f) m

end Run

namespace Engine

/-- A new engine, with a supply of its own. -/
def start (name : String) (registry : Registry) (settings : Settings) : StoreM Engine :=
  return { name, supply := ← SupplyId.create, registry, settings }

/-- A new engine with the settings of the environment. The registry is closed for it. -/
def startClosed (name : String) (registry : Registry) : StateM Session Engine := modifyGet fun σ =>
  let (e, store) := start name registry.close (.ofEnvironment σ.trace) σ.store
  (e, { σ with store })

/-- Runs an operation under the trace switches of the engine, and restores those in force before. -/
def traced (e : Engine) (act : Run α) : Run α := fun m =>
  let outer := m.session.trace.active
  match act (m.setActive (some e.settings.trace)) with
  | .ok a m => .ok a (m.setActive outer)
  | .error f m => .error f (m.setActive outer)

/-- Marks the engine as being in the middle of an operation. -/
def occupied (e : Engine) (act : Run α) : Run α := fun m =>
  let outer := m.running
  match act { m with running := e.name :: outer } with
  | .ok a m => .ok a { m with running := outer }
  | .error f m => .error f { m with running := outer }

def typeOf (e : Engine) (v : Value) : Run Ty := e.traced (v.typeOf e.supply)

def analyze (e : Engine) (x : Expr) (Γ : Env) : Run Ty := e.traced (x.analyze e.supply Γ [])

/-- A reference to a method, which must be one of the class. -/
def method (e : Engine) (ref : MethodRef) : Except ClassError Value := do
  let d ← e.registry.decl ref.cls
  if d.hasMethod ref.name then
    return .method ref []
  else
    .error (.unknownMethod d.name ref.name)

end Engine

end Overload
