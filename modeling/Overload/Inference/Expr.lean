import Overload.Inference.Copy
import Overload.Inference.Unify

/-!
# Inference for expressions

Hindley-Milner inference for a lambda calculus with a recursive `let`. An environment gives each
name a type; a use of the name takes a copy of it. The variable of a lambda's parameter is fixed
inside its body and that of a `let` inside its definition, so neither is copied there; in the
body of the `let` the defined name is generic.
-/

namespace Overload

inductive Expr where
  | var (name : String)
  | app (func arg : Expr)
  | lam (param : String) (body : Expr)
  /-- The name is in scope inside its own definition. -/
  | letRec (name : String) (defn body : Expr)
  deriving Repr, DecidableEq, Inhabited

/-- Names with their types. Extending gives a new environment; the latest binding of a name
counts. -/
structure Env where
  /-- Newest first. -/
  bindings : List (String × Ty) := []

namespace Env

def empty : Env := {}

def extend (Γ : Env) (name : String) (t : Ty) : Env := ⟨(name, t) :: Γ.bindings⟩

def get? (Γ : Env) (name : String) : Option Ty := Γ.bindings.lookup name

def size (Γ : Env) : Nat := Γ.bindings.length

/-- The bindings, oldest first. -/
def toList (Γ : Env) : List (String × Ty) := Γ.bindings.reverse

@[simp] theorem get?_extend_self (Γ : Env) (x : String) (t : Ty) :
    (Γ.extend x t).get? x = some t := by
  simp [extend, get?]

theorem get?_extend_of_ne {x y : String} (Γ : Env) (t : Ty) (h : y ≠ x) :
    (Γ.extend x t).get? y = Γ.get? y := by
  simp [extend, get?, List.lookup_cons, beq_false_of_ne h]

@[simp] theorem toList_extend (Γ : Env) (x : String) (t : Ty) :
    (Γ.extend x t).toList = Γ.toList ++ [(x, t)] := by
  simp [extend, toList]

@[simp] theorem size_extend (Γ : Env) (x : String) (t : Ty) :
    (Γ.extend x t).size = Γ.size + 1 := by
  simp [extend, size]

end Env

/-- The type of an expression, with new variables drawn from the supply `p`. -/
def Expr.analyze (p : SupplyId) (Γ : Env) (fixed : List Var) : Expr → Infer Ty
  | .var name => do
      match Γ.get? name with
      | some t => t.copy fixed p
      | none => throw (.undefined name)
  | .app func arg => do
      let funcTy ← func.analyze p Γ fixed
      let argTy ← arg.analyze p Γ fixed
      let result ← p.freshTy
      unify (.fn argTy result) funcTy
      return result
  | .lam param body => do
      let v ← p.fresh
      let bodyTy ← body.analyze p (Γ.extend param (.var v)) (fixed ++ [v])
      return .fn (.var v) bodyTy
  | .letRec name defn body => do
      let v ← p.fresh
      let scope := Γ.extend name (.var v)
      let defnTy ← defn.analyze p scope (fixed ++ [v])
      unify (.var v) defnTy
      body.analyze p scope fixed

end Overload
