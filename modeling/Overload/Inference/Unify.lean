import Overload.Inference.Session

/-!
# Unification

`unify l r` links variables until both terms resolve to the same one, and links no more than
that asks for. It fails at the first place, from left to right, where two different constructors
meet or a variable would have to contain itself; the links made before stay.
-/

namespace Overload

/-- Reports the two sides of a unification. Naming their variables is part of the report. -/
def announce (l r : Ty) : Infer Unit := do
  if (← get).trace.enabled .unify then
    let left ← l.display
    let right ← r.display
    modify (·.emit (.unify left right))

/-- Links an unbound variable to a representative, unless they are the same. -/
def Var.bind (v : Var) (t : Ty) : Infer Unit := do
  match t with
  | .var w => if v = w then return else v.link t
  | .con .. =>
      if ← v.occursIn t then
        let var ← (Ty.var v).display
        let ty ← t.display
        throw (.recursive var ty)
      else
        v.link t

/-- A variable on either side is linked to the other side; when it is the right one, the sides are
reported once more the other way round. -/
def unifyWithin : Nat → Ty → Ty → Infer Unit
  | 0, _, _ => throw .cyclic
  | n + 1, l, r => do
      let l ← l.prune
      let r ← r.prune
      announce l r
      match l, r with
      | .var v, _ => v.bind r
      | .con .., .var w =>
          announce r l
          w.bind l
      | .con c as, .con d bs =>
          if c = d ∧ as.length = bs.length then
            (as.zip bs).forM fun (a, b) => unifyWithin n a b
          else
            let expected ← l.display
            let found ← r.display
            throw (.mismatch expected found)

def unify (l r : Ty) : Infer Unit := do
  unifyWithin ((← get).store.budget [l, r]) l r

end Overload
