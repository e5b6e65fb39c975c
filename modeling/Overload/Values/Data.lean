import Overload.Engine.Fault
import Overload.Values.Basic

/-!
# Declared data

Each declaration of a data type has a type constructor and a supply of its own. Values of it are
made by `DataType.construct` alone, so their fields are as many as the variant declares.
-/

namespace Overload

namespace DataType

/-- Declares a data type; the types of the fields are written over the parameters. -/
def declare (name : String) (arity : Nat) (variants : List Ty → List Variant) :
    StateM Session DataType := do
  let params ← modifyGet fun σ =>
    let make : StoreM (List Var) := do
      let p ← SupplyId.create
      (List.replicate arity ()).mapM fun _ => p.fresh
    let (params, store) := make σ.store
    (params, { σ with store })
  let con ← Session.declareCon name
  return { con, params, variants := variants (params.map .var) }

def construct (d : DataType) (variant : String) (fields : List Value) : Except Fault Value :=
  match d.variant? variant with
  | none => .error (.message s!"{d.con.name} has no constructor {variant}")
  | some i =>
      let expected := (d.variants.get i).fields.length
      if fields.length = expected then .ok (.data d i fields)
      else .error (.arity expected fields.length)

end DataType

end Overload
