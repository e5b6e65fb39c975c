/-!
# TOML trees

A document is a table of nodes. Tables come into being in several ways, and the way decides what
may still be added to them: a table that has had its own header is complete, one that only stood
in the path of a header can still get its header, and one that dotted keys made can only grow by
dotted keys.
-/

namespace Overload.Toml

/-- How a table came into being. -/
inductive Origin where
  /-- By its own header. -/
  | header
  /-- As a part of the path of another header. -/
  | path
  /-- By a dotted key. -/
  | dotted
  deriving DecidableEq, Repr

inductive Node where
  | bool (b : Bool)
  | datetime
  /-- Any other value that is not composed. -/
  | scalar
  | array (items : List Node)
  /-- A table in braces. -/
  | inlined (entries : List (String × Node))
  | table (origin : Origin) (entries : List (String × Node))
  /-- The tables of one repeated header, latest first. -/
  | tables (tables : List (List (String × Node)))
  deriving Repr

/-- The entries of a table, one for each key. -/
abbrev Table := List (String × Node)

namespace Table

def set (t : Table) (key : String) (n : Node) : Table :=
  (key, n) :: t.filter (·.1 != key)

/-- Adds a key that is not there yet. -/
def add? (t : Table) (key : String) (n : Node) : Option Table :=
  match t.lookup key with
  | none => some (t.set key n)
  | some _ => none

/-- Changes the table at the end of a path as headers spell it. Tables that are missing on the
way are made; a repeated header stands for its latest table. -/
def below? (change : Table → Option Table) : List String → Table → Option Table
  | [], t => change t
  | key :: keys, t =>
      match t.lookup key with
      | none => do
          let child ← below? change keys []
          return t.set key (.table .path child)
      | some (.table origin child) => do
          let child ← below? change keys child
          return t.set key (.table origin child)
      | some (.tables (child :: earlier)) => do
          let child ← below? change keys child
          return t.set key (.tables (child :: earlier))
      | some _ => none

/-- Adds an entry under a dotted key. The tables on its way are not complete, and the last one
was made by a dotted key; `own` says that of the table it starts from. -/
def addDotted? (key : String) (n : Node) : Bool → List String → Table → Option Table
  | own, [], t => if own then t.add? key n else none
  | _, k :: ks, t =>
      match t.lookup k with
      | none => do
          let child ← addDotted? key n true ks []
          return t.set k (.table .dotted child)
      | some (.table .header _) => none
      | some (.table origin child) => do
          let child ← addDotted? key n (origin = .dotted) ks child
          return t.set k (.table origin child)
      | some (.tables (child :: earlier)) => do
          let child ← addDotted? key n false ks child
          return t.set k (.tables (child :: earlier))
      | some _ => none

/-- An entry of the table itself, or of one below it that its dotted path leads to. -/
def addEntry? (t : Table) (path : List String) (key : String) (n : Node) : Option Table :=
  addDotted? key n true path t

/-- The header of a table. -/
def openTable? (t : Table) (path : List String) (key : String) : Option Table :=
  below? (fun parent =>
    match parent.lookup key with
    | none => some (parent.set key (.table .header []))
    | some (.table .path child) => some (parent.set key (.table .header child))
    | some _ => none) path t

/-- A repeated header. -/
def openNext? (t : Table) (path : List String) (key : String) : Option Table :=
  below? (fun parent =>
    match parent.lookup key with
    | none => some (parent.set key (.tables [[]]))
    | some (.tables earlier) => some (parent.set key (.tables ([] :: earlier)))
    | some _ => none) path t

end Table

/-- The table that the entries of a table in braces make up. -/
def Node.ofEntries? (entries : List (List String × String × Node)) : Option Node := do
  let t ← entries.foldlM (fun t (path, key, n) => Table.addEntry? t path key n) []
  return .inlined t

end Overload.Toml
