import Overload.Types.Store

/-!
# Walks over terms, links followed

Every walk first finds the representative of the term it looks at, and finding it shortens the
chain of links: each variable passed on the way is linked straight to the representative. So
reading a term can change the links, never what they mean.

A walk takes a bound on its depth; the functions without the suffix `Within` supply one that is
large enough for every store without a cycle.
-/

namespace Overload

namespace Store

/-- The representative of a term, after at most `n` links, and the store with the chain
shortened. -/
def prune (s : Store) : Nat → Ty → Ty × Store
  | n + 1, .var v =>
      match s.link? v with
      | some t =>
          let (r, s') := s.prune n t
          (r, s'.setLink v r)
      | none => (.var v, s)
  | _, t => (t, s)

end Store

namespace Ty

/-- The term at the end of the chain of links. -/
def prune (t : Ty) : StoreM Ty := fun s => s.prune s.size t

/-- Domain and codomain of a function type. -/
def asFunction (t : Ty) : StoreM (Option (Ty × Ty)) := do
  match ← t.prune with
  | .con .arrow [domain, codomain] => return some (domain, codomain)
  | _ => return none

/-- A walk with the bound that the store and the terms call for. -/
def bounded (ts : List Ty) (walk : Nat → StoreM α) : StoreM α := fun s => walk (s.budget ts) s

/-- Adds to `found` the unbound variables of a term that are not there yet, in order of
occurrence. -/
def freeVarsWithin : Nat → List Var → Ty → StoreM (List Var)
  | 0, found, _ => return found
  | n + 1, found, t => do
      match ← t.prune with
      | .var v => return if v ∈ found then found else found ++ [v]
      | .con _ args => args.foldlM (freeVarsWithin n) found

/-- The unbound variables of a term, in order of first occurrence. -/
def freeVars (t : Ty) : StoreM (List Var) := bounded [t] (freeVarsWithin · [] t)

/-- Whether two terms are the same once links are followed. Variables compare by identity. -/
def equalWithin : Nat → Ty → Ty → StoreM Bool
  | 0, _, _ => return false
  | n + 1, t, u => do
      let t ← t.prune
      let u ← u.prune
      match t, u with
      | .var v, .var w => return v = w
      | .con c as, .con d bs =>
          if c = d ∧ as.length = bs.length then
            (as.zip bs).allM fun (a, b) => equalWithin n a b
          else
            return false
      | _, _ => return false

def equal (t u : Ty) : StoreM Bool := bounded [t, u] (equalWithin · t u)

end Ty

namespace Var

def occursWithin (v : Var) : Nat → Ty → StoreM Bool
  | 0, _ => return false
  | n + 1, t => do
      match ← t.prune with
      | .var w => return w = v
      | .con _ args => args.anyM (occursWithin v n)

/-- Whether an unbound variable is one of those of a term. -/
def occursIn (v : Var) (t : Ty) : StoreM Bool := Ty.bounded [t] (v.occursWithin · t)

/-- Whether it is one of those of some term of a list; the terms after the first hit are not
walked. -/
def occursInAny (v : Var) (ts : List Ty) : StoreM Bool := ts.anyM v.occursIn

/-- Whether a copy may rename the variable: it is no part of what any of the `fixed` ones stands
for. -/
def isGeneric (v : Var) (fixed : List Var) : StoreM Bool :=
  return !(← v.occursInAny (fixed.map .var))

end Var

end Overload
