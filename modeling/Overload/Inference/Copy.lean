import Overload.Inference.Session

/-!
# Copies of a type

A type with variables stands for all its instances. Using it means copying it: each generic
variable is replaced by a new one, the same new one wherever it occurs. Variables that are part
of what a `fixed` one stands for are shared, not replaced.
-/

namespace Overload

/-- Which new variable replaces which generic one. -/
abbrev Renaming := List (Var × Var)

namespace Ty

def copyWithin (fixed : List Var) (p : SupplyId) : Nat → Ty → StateT Renaming StoreM Ty
  | 0, t => return t
  | n + 1, t => do
      match ← t.prune with
      | .var v =>
          if ← v.isGeneric fixed then
            match (← get).lookup v with
            | some w => return .var w
            | none =>
                let w ← p.fresh
                modify ((v, w) :: ·)
                return .var w
          else
            return .var v
      | .con c args => return .con c (← args.mapM (copyWithin fixed p n))

/-- A copy that goes on with the replacements of earlier copies, so that several terms are copied
alike. -/
def copyWith (t : Ty) (fixed : List Var) (p : SupplyId) (m : Renaming) : StoreM (Ty × Renaming) :=
  bounded [t] fun n => (copyWithin fixed p n t).run m

def copy (t : Ty) (fixed : List Var) (p : SupplyId) : StoreM Ty :=
  return (← t.copyWith fixed p []).1

end Ty

end Overload
