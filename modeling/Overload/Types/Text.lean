import Overload.Types.Walk

/-!
# Texts of a type

`Ty.display` is for people: links are followed, and variables are named. `Ty.debug` shows the
term as it is stored: serial numbers for variables, each bound one with its link, and
constructors with their ids.
-/

namespace Overload

/-- Where a term stands in the text around it. -/
inductive Position where
  | top
  | arrowLeft
  | argument
  deriving DecidableEq, Repr

def parenthesize (text : String) : String := "(" ++ text ++ ")"

namespace Ty

/-- An arrow is put in parentheses on the left of an arrow and as an argument, an applied
constructor only as an argument. -/
def displayWithin : Nat → Position → Ty → StoreM String
  | 0, _, _ => return ""
  | n + 1, pos, t => do
      match ← t.prune with
      | .var v => v.name
      | .con .arrow [domain, codomain] =>
          let left ← displayWithin n .arrowLeft domain
          let right ← displayWithin n .top codomain
          let text := left ++ " -> " ++ right
          return if pos = .top then text else parenthesize text
      | .con .tuple args =>
          return parenthesize (", ".intercalate (← args.mapM (displayWithin n .top)))
      | .con c args =>
          let text := " ".intercalate (c.name :: (← args.mapM (displayWithin n .argument)))
          return if pos = .argument ∧ args ≠ [] then parenthesize text else text

def display (t : Ty) : StoreM String := bounded [t] (displayWithin · .top t)

def debugWithin (s : Store) : Nat → Ty → String
  | 0, _ => ""
  | n + 1, .var v =>
      let own := "t" ++ toString (s.serial v)
      match s.link? v with
      | some t => own ++ " := " ++ debugWithin s n t
      | none => own
  | n + 1, .con c args =>
      let own := c.name ++ "#" ++ toString c.id
      if args.isEmpty then own
      else own ++ "[" ++ ", ".intercalate (args.map (debugWithin s n)) ++ "]"

/-- The bound counts links beside constructors, as both are shown. -/
def debug (s : Store) (t : Ty) : String :=
  debugWithin s (s.budget [t] + s.size) t

end Ty

end Overload
