import Overload.Engine.Basic

/-!
# Host functions

A host function computes freely on its arguments, but reaches types and other functions only
through requests to an engine. What it does is therefore a tree: it ends with a value or a
fault, or it makes a request and goes on as the outcome says. It may go on after a request that
failed.

A request goes to the engine that called the function or to another one, which must not be in
the middle of an operation.

A host function has no state of its own: only its arguments and the outcomes of its requests
decide what it does. It calls a typed function as it calls any other, by `Request.apply`. The call
that tells a function which still misses arguments from a result is for the host alone
(`Host.call`).
-/

namespace Overload

inductive Request where
  | apply (func : Value) (args : List Value)
  | callMethod (cls : ClassId) (name : String) (dispatchOn : ArgIndex) (args : List Value)
  | callInstance (cls : ClassId) (ty : TypeCon) (name : String) (args : List Value)
  | typeOf (v : Value)
  /-- Inference with the engine's supply, but not as an operation of the engine. -/
  | bareTypeOf (v : Value)
  | analyze (x : Expr) (Γ : Env)
  /-- The text of a type. -/
  | display (t : Ty)

namespace Request

/-- What a request is answered with. -/
abbrev Answer : Request → Type
  | .apply .. | .callMethod .. | .callInstance .. => Value
  | .typeOf _ | .bareTypeOf _ | .analyze .. => Ty
  | .display _ => String

end Request

inductive Action (α : Type) where
  | done (a : α)
  | fail (f : Fault)
  /-- A request to the named engine, or else to the calling one. -/
  | ask (engine : Option String) (r : Request) (next : Except Fault r.Answer → Action α)

namespace Action

def bind : Action α → (α → Action β) → Action β
  | .done a, f => f a
  | .fail e, _ => .fail e
  | .ask engine r next, f => .ask engine r fun x => (next x).bind f

instance : Monad Action where
  pure := .done
  bind := .bind

/-- Goes on with `handler` where the action would end with a fault. -/
def recover (handler : Fault → Action α) : Action α → Action α
  | .done a => .done a
  | .fail e => handler e
  | .ask engine r next => .ask engine r fun x => (next x).recover handler

def ofExcept : Except Fault α → Action α
  | .ok a => .done a
  | .error e => .fail e

/-- A request whose fault is a fault of the action. -/
def request (r : Request) (engine : Option String := none) : Action r.Answer :=
  .ask engine r ofExcept

end Action

/-- The host: its functions, by number, and the engines it has started. -/
structure Host where
  functions : Array (List Value → Action Value) := #[]
  /-- Newest first; the newest of a name counts. -/
  engines : List Engine := []

namespace Host

def function (h : Host) (index : Nat) : List Value → Action Value :=
  h.functions[index]?.getD fun _ => .fail (.message "no such function")

def engine? (h : Host) (name : String) : Option Engine := h.engines.find? (·.name == name)

/-- The host with one more function, and its number. -/
def define (h : Host) (function : List Value → Action Value) : Nat × Host :=
  (h.functions.size, { h with functions := h.functions.push function })

def addEngine (h : Host) (e : Engine) : Host := { h with engines := e :: h.engines }

/-- Carries out an operation in the named engine, or else in the calling one. -/
def inEngine (h : Host) (caller : Engine) (name : Option String) (act : Engine → Run α) :
    Run α := do
  match name with
  | none => act caller
  | some name =>
      match h.engine? name with
      | none => throw (.message "no such engine")
      | some e =>
          if (← get).running.contains name then throw (.message "engine is busy")
          else e.occupied (act e)

end Host

end Overload
