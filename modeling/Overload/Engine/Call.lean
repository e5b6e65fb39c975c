import Overload.Engine.Action
import Overload.Engine.Operation

/-!
# Calls

Functions are curried: with too few arguments a call gives a function that holds them, with too
many it is a fault. A typed function is checked at the call that completes its arguments,
against a new copy of its type: first the arguments, then the constraints, then, after the code
has run, the result. A method runs the instance that the argument it dispatches on belongs to.

Calls made by code go through the parameter `apply`; `Host.applyWithin` ties the knot with a
bound on how deep they are nested.
-/

namespace Overload

/-- What a typed call comes to. -/
inductive CallOutcome where
  /-- Arguments are missing; the function that holds the given ones. -/
  | unsaturated (func : Value)
  | applied (result : Value)

def CallOutcome.value : CallOutcome → Value
  | .unsaturated func => func
  | .applied result => result

/-- Whether a constraint is met by what its variable stands for; `false` while that is open. -/
def Registry.meets (r : Registry) (cls : ClassId) (v : Var) : Run Bool := do
  match ← (Ty.var v).prune with
  | .con c _ => do
      discard (r.lookup cls c : Except ClassError MethodRecord)
      return true
  | .var _ => return false

/-- The constraints that are still open, with the variables they are about. A constraint follows its
variable into the copy of the type. -/
def Registry.openConstraints (r : Registry) (copies : Renaming) (cs : List Constraint) :
    Run (List (ClassId × Var)) :=
  cs.filterMapM fun c => do
    let v := (copies.lookup c.var).getD c.var
    return if ← r.meets c.cls v then none else some (c.cls, v)

namespace Engine

/-- What is checked before the code of a complete call runs: the arguments, and the constraints that
they decide. The type of the result and the other constraints are left to check. -/
def accept (e : Engine) (name : String) (sig : Signature) (args : List Value) :
    Run (Ty × List (ClassId × Var)) := do
  let (opened, ret) ← sig.applyTo e.supply name args
  let pending ←
    if e.settings.checkConstraints then e.registry.openConstraints opened.copies sig.constraints
    else pure []
  return (ret, pending)

/-- What is checked after it has run: the type of the result, and the constraints left open. -/
def inspect (e : Engine) (ret : Ty) (pending : List (ClassId × Var)) (result : Value) : Run Unit :=
  if e.settings.checkResult then do
    let actual ← result.typeOf e.supply
    unify actual ret
    pending.forM fun (cls, v) => discard (e.registry.meets cls v)
  else
    return

/-- Reports the type of the result of a call. -/
def announceResult (name : String) (ret : Ty) : Run Unit := do
  if (← get).enabled .calls then
    Run.report .calls (.applied name (← ret.display))

/-- Ends a call whose code has run. -/
def conclude (e : Engine) (name : String) (ret : Ty) (pending : List (ClassId × Var))
    (result : Value) : Run CallOutcome := do
  e.inspect ret pending result
  announceResult name ret
  return .applied result

end Engine

/-- Runs a method from the instance for a type. -/
def Engine.callInstance (apply : Apply) (e : Engine) (cls : ClassId) (ty : TypeCon) (name : String)
    (args : List Value) : Run Value := e.traced do
  let record ← (e.registry.lookup cls ty : Except ClassError MethodRecord)
  match record.get? name with
  | some imp =>
      Run.report .dispatch (.dispatched name ty.name)
      apply e imp args
  | none =>
      let d ← (e.registry.decl cls : Except ClassError ClassDecl)
      throw (.cls (.unknownMethod d.name name))

/-- Runs a method from the instance that the argument at `dispatchOn` belongs to. -/
def Engine.callMethod (apply : Apply) (e : Engine) (cls : ClassId) (name : String)
    (dispatchOn : ArgIndex) (args : List Value) : Run Value :=
  match args[dispatchOn.toNat]? with
  | some target => e.callInstance apply cls target.con name args
  | none => throw (.arity dispatchOn.needed args.length)

/-- Carries out a request of a host function. -/
def Engine.answer (apply : Apply) (e : Engine) : (r : Request) → Run r.Answer
  | .apply func args => apply e func args
  | .callMethod cls name dispatchOn args => e.callMethod apply cls name dispatchOn args
  | .callInstance cls ty name args => e.callInstance apply cls ty name args
  | .typeOf v => e.typeOf v
  | .bareTypeOf v => v.typeOf e.supply
  | .analyze x Γ => e.analyze x Γ
  | .display t => t.display

namespace Host

/-- Runs the requests of an action one by one. -/
def perform (h : Host) (apply : Apply) (e : Engine) : Action α → Run α
  | .done a => return a
  | .fail f => throw f
  | .ask engine r next => do
      let outcome ← Run.observe (h.inEngine e engine fun e' => e'.answer apply r)
      h.perform apply e (next outcome)

/-- Runs the code of a function on all its arguments. The run of a host function is logged under the
name of the function. -/
def runCode (h : Host) (apply : Apply) (e : Engine) (name : String) (code : Code)
    (args : List Value) : Run Value :=
  match code with
  | .operation op => op.run apply e args
  | .host index => do
      Run.logCall name
      h.perform apply e (h.function index args)

def callTyped (h : Host) (apply : Apply) (e : Engine) (name : String) (sig : Signature)
    (code : Code) (bound args : List Value) : Run CallOutcome := e.traced do
  let total := bound.length + args.length
  if sig.arity < total then
    throw (.arity sig.arity total)
  let all := bound ++ args
  if total < sig.arity then
    Run.report .calls (.partialCall name total sig.arity)
    return .unsaturated (.typed name sig code all)
  let (ret, pending) ← e.accept name sig all
  let result ← h.runCode apply e name code all
  e.conclude name ret pending result

def applyWith (h : Host) (apply : Apply) (e : Engine) (func : Value) (args : List Value) :
    Run Value := e.traced do
  match func with
  | .builtin name arity code bound =>
      let all := bound ++ args
      if arity < all.length then
        throw (.arity arity all.length)
      else if all.length = arity then
        h.runCode apply e name code all
      else
        return .builtin name arity code all
  | .typed name sig code bound => return (← h.callTyped apply e name sig code bound args).value
  | .method ref bound =>
      let all := bound ++ args
      if ref.arity < all.length then
        throw (.arity ref.arity all.length)
      else if all.length < ref.arity then
        return .method ref all
      else
        e.callMethod apply ref.cls ref.name ref.dispatchOn all
  | v => throw (.notCallable v.display)

/-- A call under which at most `n` more are nested. -/
def applyWithin (h : Host) : Nat → Apply
  | 0, _, _, _ => throw .tooDeep
  | n + 1, e, func, args => h.applyWith (h.applyWithin n) e func args

/-- How deep calls may be nested. -/
def depthLimit : Nat := 100000

/-! ## Operations that a host starts -/

def nested (h : Host) : Apply := h.applyWithin depthLimit

def apply (h : Host) (e : Engine) (func : Value) (args : List Value) : Run Value :=
  e.occupied (h.nested e func args)

def call (h : Host) (e : Engine) (name : String) (sig : Signature) (code : Code)
    (bound args : List Value) : Run CallOutcome :=
  e.occupied (h.callTyped h.nested e name sig code bound args)

/-- Runs code as it is, whatever the number of arguments. -/
def callCode (h : Host) (e : Engine) (name : String) (code : Code) (args : List Value) :
    Run Value :=
  e.occupied (h.runCode h.nested e name code args)

def callMethod (h : Host) (e : Engine) (cls : ClassId) (name : String) (dispatchOn : ArgIndex)
    (args : List Value) : Run Value :=
  e.occupied (e.callMethod h.nested cls name dispatchOn args)

def callInstance (h : Host) (e : Engine) (cls : ClassId) (ty : TypeCon) (name : String)
    (args : List Value) : Run Value :=
  e.occupied (e.callInstance h.nested cls ty name args)

end Host

end Overload
