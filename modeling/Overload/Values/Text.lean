import Overload.Number.Decimal
import Overload.Types.Text
import Overload.Values.Basic

/-!
# Texts of values

Lists in brackets, tuples in parentheses, data as its variant followed by its fields. A field
that is itself data with fields is put in parentheses. Texts stand as they are, without quotes.
-/

namespace Overload

def Foreign.render (object : Foreign) : String :=
  match object.description with
  | some d => d.text
  | none => s!"<{object.con.name}>"

namespace Value

mutual

/-- `inner` says that the value is a field of data. -/
def render (inner : Bool) : Value → String
  | .unit => "Unit"
  | .bool b => if b then "True" else "False"
  | .int n => toString n.toInt
  | .float x => x.text
  | .text s => s
  | .list items => "[" ++ ", ".intercalate (renderAll false items) ++ "]"
  | .tuple items => parenthesize (", ".intercalate (renderAll false items))
  | .data type variant fields =>
      let text := " ".intercalate ((type.variants.get variant).name :: renderAll true fields)
      if inner && !fields.isEmpty then parenthesize text else text
  | .builtin name .. => s!"<builtin:{name}>"
  | .typed name .. => s!"<typed:{name}>"
  | .method ref _ => s!"<method:{ref.name}>"
  | .foreign object => object.render

def renderAll (inner : Bool) : List Value → List String
  | [] => []
  | v :: vs => render inner v :: renderAll inner vs

end

def display (v : Value) : String := v.render false

end Value

end Overload
