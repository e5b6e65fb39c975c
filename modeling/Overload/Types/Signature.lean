import Overload.Types.Walk

/-!
# Signatures

A function type split into parameters and a result, with the classes that some of its variables
must belong to. `Signature.ofTy` splits a chain of arrows as far as it goes, so the result of
such a signature is no function type.
-/

namespace Overload

/-- A class is known by its position in the registry that declared it. -/
structure ClassId where
  index : Nat
  deriving DecidableEq, Repr, Inhabited

/-- The requirement that whatever a variable stands for is an instance of a class. -/
structure Constraint where
  cls : ClassId
  var : Var
  deriving DecidableEq, Repr

structure Signature where
  params : List Ty
  ret : Ty
  constraints : List Constraint := []

namespace Signature

def arity (sig : Signature) : Nat := sig.params.length

/-- The declared type, constraints aside. -/
def toTy (sig : Signature) : Ty := .chain sig.params sig.ret

/-- The domains of a chain of arrows, and what is left at its end. -/
def splitWithin : Nat → Ty → StoreM (List Ty × Ty)
  | 0, t => return ([], t)
  | n + 1, t => do
      match ← t.asFunction with
      | some (domain, codomain) =>
          let (params, ret) ← splitWithin n (← codomain.prune)
          return (domain :: params, ret)
      | none => return ([], t)

def ofTy (t : Ty) : StoreM Signature := do
  let t ← t.prune
  let (params, ret) ← Ty.bounded [t] (splitWithin · t)
  return { params, ret }

end Signature

end Overload
