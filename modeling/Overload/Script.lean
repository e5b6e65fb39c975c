import Overload.Engine.Action
import Overload.Values.Data
import Overload.Values.Text

/-!
# Scripts

A small language for host functions. A script is evaluated with the arguments of the call. Its
parts are evaluated from left to right, and the first fault ends the evaluation, unless an
`attempt` goes on after it.
-/

namespace Overload

inductive Script where
  | arg (i : Nat)
  | const (v : Value)
  | list (items : List Script)
  | tuple (items : List Script)
  | construct (type : DataType) (variant : String) (fields : List Script)
  /-- A call, in another engine if one is named. -/
  | call (func : Script) (args : List Script) (engine : Option String)
  | fail (message : String)
  /-- The text of the type of a value, as the engine infers it. -/
  | typeOf (value : Script)
  /-- The same without an operation of the engine around the inference. -/
  | bareTypeOf (value : Script)
  | field (i : Nat) (value : Script)
  | switch (value : Script) (arms : List (String × Script)) (otherwise : Script)
  /-- The texts of some values, one after the other. -/
  | join (items : List Script)
  | sequence (items : List Script)
  | attempt (first otherwise : Script)

instance : Inhabited Script := ⟨.const .unit⟩

namespace Script

def argument (args : List Value) (i : Nat) : Except Fault Value :=
  match args[i]? with
  | some v => .ok v
  | none => .error (.message "no such argument")

def fieldOf (i : Nat) (v : Value) : Except Fault Value :=
  match v with
  | .data _ _ fields =>
      match fields[i]? with
      | some v => .ok v
      | none => .error (.message "no such field")
  | _ => .error (.message "no such field")

/-- The text of a type, as a value. -/
def typeText (t : Ty) : Action Value := return .text (← Action.request (.display t))

mutual

def eval (args : List Value) : Script → Action Value
  | .arg i => .ofExcept (argument args i)
  | .const v => return v
  | .list items => return .list (← evalAll args items)
  | .tuple items => return .tuple (← evalAll args items)
  | .construct type variant fields => do
      let fields ← evalAll args fields
      .ofExcept (type.construct variant fields)
  | .call func actuals engine => do
      let func ← eval args func
      let actuals ← evalAll args actuals
      Action.request (.apply func actuals) engine
  | .fail message => .fail (.message message)
  | .typeOf value => do
      let v ← eval args value
      typeText (← Action.request (.typeOf v))
  | .bareTypeOf value => do
      let v ← eval args value
      typeText (← Action.request (.bareTypeOf v))
  | .field i value => do
      let v ← eval args value
      .ofExcept (fieldOf i v)
  | .switch value arms otherwise => do
      match ← eval args value with
      | .data type variant _ =>
          evalArm args (type.variants.get variant).name (eval args otherwise) arms
      | _ => eval args otherwise
  | .join items => do
      let vs ← evalAll args items
      return .text (String.join (vs.map Value.display))
  | .sequence items => do
      let vs ← evalAll args items
      return vs.getLast?.getD .unit
  | .attempt first otherwise => (eval args first).recover fun _ => eval args otherwise

def evalAll (args : List Value) : List Script → Action (List Value)
  | [] => return []
  | s :: ss => do
      let v ← eval args s
      let vs ← evalAll args ss
      return v :: vs

/-- The arm of a variant, or else the given action. -/
def evalArm (args : List Value) (variant : String) (otherwise : Action Value) :
    List (String × Script) → Action Value
  | [] => otherwise
  | (name, s) :: arms =>
      if name = variant then eval args s else evalArm args variant otherwise arms

end

/-- The host function that a script describes. -/
def function (s : Script) : List Value → Action Value := fun args => s.eval args

end Script

end Overload
