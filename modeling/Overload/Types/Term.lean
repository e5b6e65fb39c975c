/-!
# Type terms

The monotypes: a variable, or a constructor applied to any number of arguments. Functions,
tuples and lists are constructors like any other, so every walk over a term has two cases. A
variable is only an index; what it stands for is kept in a store (`Overload.Types.Store`).
-/

namespace Overload

inductive TypeCon where
  | unit
  | bool
  | int
  | float
  | text
  | list
  | tuple
  | arrow
  /-- Declared constructors are numbered, so that two of one name stay apart. -/
  | declared (index : Nat) (name : String)
  deriving DecidableEq, Repr, Inhabited

namespace TypeCon

/-- The constructors that exist before any is declared. -/
def builtins : List TypeCon := [.unit, .bool, .int, .float, .text, .list, .tuple, .arrow]

/-- The number that a constructor is shown with; the declared ones count from 64. -/
def id : TypeCon → Nat
  | .unit => 0
  | .bool => 1
  | .int => 2
  | .float => 3
  | .text => 4
  | .list => 5
  | .tuple => 6
  | .arrow => 7
  | .declared index _ => 64 + index

def name : TypeCon → String
  | .unit => "Unit"
  | .bool => "Bool"
  | .int => "Int"
  | .float => "Float"
  | .text => "Text"
  | .list => "List"
  | .tuple => "Tuple"
  | .arrow => "->"
  | .declared _ name => name

end TypeCon

/-- A type variable: the index of its cell in the store. -/
structure Var where
  index : Nat
  deriving DecidableEq, Repr, Inhabited

inductive Ty where
  | var (v : Var)
  | con (c : TypeCon) (args : List Ty)
  deriving Repr

namespace Ty

/-- A constructor without arguments. -/
def nullary (c : TypeCon) : Ty := .con c []

instance : Inhabited Ty := ⟨nullary .unit⟩

def fn (domain codomain : Ty) : Ty := .con .arrow [domain, codomain]

/-- `p₁ -> p₂ -> … -> ret`; just `ret` when there are no parameters. -/
def chain (params : List Ty) (ret : Ty) : Ty := params.foldr fn ret

def list (elem : Ty) : Ty := .con .list [elem]

def tuple (items : List Ty) : Ty := .con .tuple items

@[simp] theorem chain_nil (ret : Ty) : chain [] ret = ret := rfl

@[simp] theorem chain_cons (p : Ty) (ps : List Ty) (ret : Ty) :
    chain (p :: ps) ret = fn p (chain ps ret) := rfl

/-! ## Equality -/

mutual

def decEq : (t u : Ty) → Decidable (t = u)
  | .var v, .var w =>
      if h : v = w then isTrue (by rw [h]) else isFalse (by simpa using h)
  | .con c as, .con d bs =>
      if h : c = d then
        match decEqs as bs with
        | isTrue h' => isTrue (by rw [h, h'])
        | isFalse h' => isFalse (by simp [h'])
      else isFalse (by simp [h])
  | .var _, .con .. => isFalse (by simp)
  | .con .., .var _ => isFalse (by simp)

def decEqs : (ts us : List Ty) → Decidable (ts = us)
  | [], [] => isTrue rfl
  | t :: ts, u :: us =>
      match decEq t u, decEqs ts us with
      | isTrue h, isTrue h' => isTrue (by rw [h, h'])
      | isFalse h, _ => isFalse (by simp [h])
      | _, isFalse h' => isFalse (by simp [h'])
  | [], _ :: _ => isFalse (by simp)
  | _ :: _, [] => isFalse (by simp)

end

instance : DecidableEq Ty := decEq

/-! ## Height

The number of constructors on the longest way down, links not followed. -/

mutual

def height : Ty → Nat
  | .var _ => 0
  | .con _ args => heights args + 1

/-- The greatest height in a list of terms. -/
def heights : List Ty → Nat
  | [] => 0
  | t :: ts => max t.height (heights ts)

end

theorem height_le_heights {t : Ty} {ts : List Ty} (h : t ∈ ts) : t.height ≤ heights ts := by
  induction ts with
  | nil => cases h
  | cons u us ih =>
      rw [heights]
      rcases List.mem_cons.mp h with rfl | h
      · exact Nat.le_max_left ..
      · exact Nat.le_trans (ih h) (Nat.le_max_right ..)

end Ty

end Overload
