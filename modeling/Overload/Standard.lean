import Overload.Classes.Build
import Overload.Engine.Call

/-!
# The standard classes

`Show` and `Eq` for all data, `Ord` and `Num` for the types that have an order or arithmetic,
and the tower `Functor`, `Applicative`, `Monad` for lists. `Show` and `Eq` can be derived for
any type.
-/

namespace Overload

/-- The ids of the standard classes in the registry they are installed in. -/
structure Standard where
  shows : ClassId
  eq : ClassId
  ord : ClassId
  num : ClassId
  functor : ClassId
  applicative : ClassId
  monad : ClassId

namespace Standard

/-- The record that implements each operation under its own name. -/
def record (ops : List Operation) : MethodRecord :=
  .ofList (ops.map fun op => (op.name, op.value))

/-- A class whose methods are the given operations. -/
def declare (name : String) (superclasses : List ClassId) (ops : List Operation)
    (derivable : Bool) : Build ClassId :=
  Build.declare
    { name, superclasses, methods := ops.map Operation.name
      deriver := if derivable then some (.const (record ops)) else none }

def register (cls : ClassId) (ops : List Operation) (types : List TypeCon) : Build Unit :=
  types.forM fun ty => Build.register cls ty (record ops)

def data : List TypeCon := [.unit, .bool, .int, .float, .text, .list, .tuple]

def install : Build Standard := do
  let shows ← declare "Show" [] [.display] true
  let eq ← declare "Eq" [] [.eq] true
  let ord ← declare "Ord" [eq] [.compare] false
  let num ← declare "Num" [] [.add, .sub, .mul, .negate] false
  let functor ← declare "Functor" [] [.fmap] false
  let applicative ← declare "Applicative" [functor] [.pure, .ap] false
  let monad ← declare "Monad" [applicative] [.bind] false
  data.forM fun ty => do
    register shows [.display] [ty]
    register eq [.eq] [ty]
  register ord [.compare] [.bool, .int, .float, .text]
  register num [.add, .sub, .mul, .negate] [.int, .float]
  register functor [.fmap] [.list]
  register applicative [.pure, .ap] [.list]
  register monad [.bind] [.list]
  return { shows, eq, ord, num, functor, applicative, monad }

/-! ## The methods as values -/

def methodOf (cls : ClassId) (op : Operation) (dispatchOn : ArgIndex) : Value :=
  .method { cls, name := op.name, arity := op.arity, dispatchOn } []

/-- All methods that dispatch on an argument. `fmap` looks at the container, which comes second. -/
def methods (s : Standard) : List (String × Value) :=
  [ ("fmap", methodOf s.functor .fmap 1),
    ("bind", methodOf s.monad .bind 0),
    ("ap", methodOf s.applicative .ap 0),
    ("show", methodOf s.shows .display 0),
    ("eq", methodOf s.eq .eq 0),
    ("compare", methodOf s.ord .compare 0),
    ("add", methodOf s.num .add 0) ]

/-- `pure` has no argument to dispatch on, so its type is given. -/
def pure (s : Standard) (h : Host) (e : Engine) (ty : TypeCon) (v : Value) : Run Value :=
  h.callInstance e s.applicative ty Operation.pure.name [v]

end Standard

end Overload
