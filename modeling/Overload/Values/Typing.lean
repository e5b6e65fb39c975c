import Overload.Inference.Expr
import Overload.Values.Basic

/-!
# Types of values

`Value.typeOf` infers the type of a value with new variables from a supply. The items of a list
have to agree with its first one, the fields of data with the declared types at one instance of
the parameters, and the arguments that a typed function holds with its parameters. Nothing is
known of the type of a function without a signature but the number of its arguments.
-/

namespace Overload

namespace Ty

/-- Copies of several terms alike, one after the other. -/
def copyAll (ts : List Ty) (fixed : List Var) (p : SupplyId) (m : Renaming) :
    StoreM (List Ty × Renaming) :=
  (ts.mapM fun t => (t.copyWith fixed p : StateT Renaming StoreM Ty)).run m

end Ty

/-- A copy of a declared type whose variables are fixed while arguments are fitted to it. -/
structure Opened where
  ty : Ty
  fixed : List Var
  /-- Where each declared variable went. -/
  copies : Renaming

namespace Signature

def openCopy (sig : Signature) (p : SupplyId) : StoreM Opened := do
  let (ty, copies) ← sig.toTy.copyWith [] p []
  return { ty, fixed := ← ty.freeVars, copies }

end Signature

/-- The type of an application to arguments of the given types: the result of analysing
`f a₀ … aₖ`, where `f` has the opened type. -/
def Opened.applyTo (o : Opened) (p : SupplyId) (name : String) (args : List Ty) : Infer Ty := do
  let func := s!"{name}#fn"
  let (Γ, e) := args.zipIdx.foldl
    (fun (Γ, e) (t, i) =>
      let slot := s!"{name}#{i}"
      (Γ.extend slot t, .app e (.var slot)))
    (Env.empty.extend func o.ty, Expr.var func)
  let inferred ← e.analyze p Γ o.fixed
  let ret ← p.freshTy
  unify inferred ret
  return ret

/-- The type of a function of which only the number of arguments is known. -/
def Ty.unknownFunction (p : SupplyId) (arity : Nat) : StoreM Ty := do
  let params ← (List.replicate arity ()).mapM fun _ => p.freshTy
  return .chain params (← p.freshTy)

def Foreign.typeOf (p : SupplyId) (object : Foreign) : StoreM Ty :=
  match object.description with
  | some d => if d.copied then d.ty.copy [] p else return d.ty
  | none => return .nullary object.con

namespace Value

mutual

def typeOf (p : SupplyId) : Value → Infer Ty
  | .unit => return .nullary .unit
  | .bool _ => return .nullary .bool
  | .int _ => return .nullary .int
  | .float _ => return .nullary .float
  | .text _ => return .nullary .text
  | .list [] => return .list (← p.freshTy)
  | .list (v :: vs) => do
      let elem ← typeOf p v
      agreeWith p elem vs
      return .list elem
  | .tuple items => return .tuple (← typesOf p items)
  | .data type variant fields => do
      let (params, m) ← Ty.copyAll (type.params.map .var) [] p []
      fitFields p m (type.variants.get variant).fields fields
      return .con type.con params
  | .builtin _ arity _ args => Ty.unknownFunction p (missing arity args)
  | .method ref args => Ty.unknownFunction p (missing ref.arity args)
  | .typed _ sig _ [] => sig.toTy.copy [] p
  | .typed name sig _ (v :: vs) => do
      let opened ← sig.openCopy p
      opened.applyTo p name (← typesOf p (v :: vs))
  | .foreign object => object.typeOf p

/-- The types of several values, each on its own. -/
def typesOf (p : SupplyId) : List Value → Infer (List Ty)
  | [] => return []
  | v :: vs => do
      let t ← typeOf p v
      let ts ← typesOf p vs
      return t :: ts

/-- Unifies the type of each value in turn with a given one. -/
def agreeWith (p : SupplyId) (elem : Ty) : List Value → Infer Unit
  | [] => return
  | v :: vs => do
      unify elem (← typeOf p v)
      agreeWith p elem vs

/-- Unifies a copy of each declared field type with the type of the field. -/
def fitFields (p : SupplyId) (m : Renaming) : List Ty → List Value → Infer Unit
  | template :: templates, v :: vs => do
      let (expected, m) ← template.copyWith [] p m
      unify expected (← typeOf p v)
      fitFields p m templates vs
  | _, _ => return

end

end Value

/-- Fits arguments to a new copy of the declared type: the copy, and the type of the application. -/
def Signature.applyTo (sig : Signature) (p : SupplyId) (name : String) (args : List Value) :
    Infer (Opened × Ty) := do
  let opened ← sig.openCopy p
  let types ← Value.typesOf p args
  let ret ← opened.applyTo p name types
  return (opened, ret)

end Overload
