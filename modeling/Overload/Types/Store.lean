import Overload.Types.Term

/-!
# The store of type variables

A variable is a cell of the store. It belongs to a supply, carries its serial number within that
supply, is either unbound or linked to a term, and gets a display name the first time one is
asked for. Serial numbers and names are both counted per supply, so two supplies hand out the
same ones.

`link?` is the view that everything else reads: a store means the links it holds.

Counters are natural numbers and never run over, those of variables and names as well as those of
constructors and classes. Words of 32 bits count alike as long as a supply has handed out fewer than
`2 ^ 32` variables and as many names, and no more constructors and classes have been declared.
-/

namespace Overload

/-- The index of a supply in the store. -/
abbrev SupplyId := Nat

structure Cell where
  supply : SupplyId
  serial : Nat
  link : Option Ty := none
  /-- The position of the display name in the supply's sequence, once it has one. -/
  label : Option Nat := none

structure Supply where
  /-- How many variables have been allocated. -/
  allocated : Nat := 0
  /-- How many display names have been handed out. -/
  labelled : Nat := 0
  deriving Inhabited

structure Store where
  cells : Array Cell := #[]
  supplies : Array Supply := #[]

/-- Computations that read and update the store, and cannot fail. -/
abbrev StoreM := StateM Store

namespace Store

def empty : Store := {}

instance : Inhabited Store := ⟨empty⟩

/-- The number of variables. -/
def size (s : Store) : Nat := s.cells.size

/-- The term that a variable is linked to, if it is bound. -/
def link? (s : Store) (v : Var) : Option Ty := s.cells[v.index]?.bind Cell.link

def isBound (s : Store) (v : Var) : Bool := (s.link? v).isSome

/-- The number of a variable within its supply. -/
def serial (s : Store) (v : Var) : Nat := (s.cells[v.index]?.map Cell.serial).getD 0

def setLink (s : Store) (v : Var) (t : Ty) : Store :=
  { s with cells := s.cells.modify v.index fun c => { c with link := some t } }

/-- The variables allocated from a supply so far. -/
def allocated (s : Store) (p : SupplyId) : Nat := (s.supplies[p]?.getD {}).allocated

/-- The greatest height of a linked term. -/
def height (s : Store) : Nat :=
  Ty.heights (s.cells.toList.filterMap Cell.link)

/-- A bound on how many constructors lie on any way down from the given terms, links followed:
without a cycle such a way passes through each variable at most once. -/
def budget (s : Store) (ts : List Ty) : Nat :=
  (s.size + 1) * max s.height (Ty.heights ts) + 1

@[simp] theorem size_setLink (s : Store) (v : Var) (t : Ty) : (s.setLink v t).size = s.size := by
  simp [size, setLink]

theorem link?_setLink_self {s : Store} {v : Var} (t : Ty) (h : v.index < s.size) :
    (s.setLink v t).link? v = some t := by
  have h' : v.index < s.cells.size := h
  simp only [link?, setLink, Array.getElem?_modify, if_true]
  simp [h']

theorem link?_setLink_of_ne {s : Store} {v w : Var} (t : Ty) (h : w ≠ v) :
    (s.setLink v t).link? w = s.link? w := by
  have h' : v.index ≠ w.index := fun e => h (by cases v; cases w; simp_all)
  simp [link?, setLink, Array.getElem?_modify, h']

end Store

/-- Links an unbound variable, or moves the link of a bound one. -/
def Var.link (v : Var) (t : Ty) : StoreM Unit := modify (·.setLink v t)

namespace SupplyId

/-- A new supply without variables. -/
def create : StoreM SupplyId := modifyGet fun s =>
  (s.supplies.size, { s with supplies := s.supplies.push {} })

/-- A new unbound variable. -/
def fresh (p : SupplyId) : StoreM Var := modifyGet fun s =>
  (⟨s.size⟩,
   { s with
     cells := s.cells.push { supply := p, serial := s.allocated p }
     supplies := s.supplies.modify p fun u => { u with allocated := u.allocated + 1 } })

/-- A new unbound variable, as a term. -/
def freshTy (p : SupplyId) : StoreM Ty := return .var (← p.fresh)

end SupplyId

/-! ## Display names -/

/-- `a` to `z`, then `a1` to `z1`, then `a2` and so on. -/
def letterName (i : Nat) : String :=
  let letter := Char.ofNat ('a'.toNat + i % 26)
  let round := i / 26
  if round = 0 then letter.toString else letter.toString ++ toString round

/-- The display name of a variable, drawn from its supply's sequence on first use and kept from then
on, also when the variable is bound later. -/
def Var.name (v : Var) : StoreM String := modifyGet fun s =>
  match s.cells[v.index]? with
  | none => ("", s)
  | some cell =>
      match cell.label with
      | some i => (letterName i, s)
      | none =>
          let i := (s.supplies[cell.supply]?.getD {}).labelled
          (letterName i,
           { s with
             cells := s.cells.modify v.index fun c => { c with label := some i }
             supplies := s.supplies.modify cell.supply fun u =>
               { u with labelled := u.labelled + 1 } })

end Overload
