import Overload.Classes.Record

/-!
# Registries of classes

A registry holds declared classes and their instances: for a class and a type constructor at
most one method record. Superclasses are declared before the classes that need them, and their
instances are registered first. Once closed, a registry takes nothing more.

Each check has its error, and the checks are made in a fixed order, so that of several faults
the first one in that order is reported.
-/

namespace Overload

inductive ClassError where
  | missingInstance (className typeName : String)
  | missingDependency (className dependency typeName : String)
  | duplicateInstance (className typeName : String)
  | incompleteInstance (className typeName method : String)
  | unknownMethod (className method : String)
  | unknownClass (index : Nat)
  | duplicateClass (className : String)
  | notDerivable (className typeName : String)
  | closed
  deriving DecidableEq, Repr

def ClassError.message : ClassError → String
  | .missingInstance c t => s!"no instance of {c} for {t}"
  | .missingDependency c d t => s!"cannot make {t} an instance of {c}: missing {d} instance"
  | .duplicateInstance c t => s!"{t} is already an instance of {c}"
  | .incompleteInstance c t m => s!"instance {c} {t} is missing method '{m}'"
  | .unknownMethod c m => s!"class {c} has no method '{m}'"
  | .unknownClass i => s!"unknown class #{i}"
  | .duplicateClass c => s!"class {c} is already declared"
  | .notDerivable c t => s!"class {c} cannot derive an instance for {t}"
  | .closed => "typeclass registry is sealed"

/-- What a class shows of itself. -/
structure ClassInfo where
  id : ClassId
  name : String
  superclasses : List ClassId
  methods : List String
  derivable : Bool

/-- What a deriver can ask of the registry it works for. -/
structure Inquiry where
  info : ClassId → Except ClassError ClassInfo
  classByName? : String → Option ClassId
  lookup : ClassId → TypeCon → Except ClassError MethodRecord
  hasInstance : ClassId → TypeCon → Bool
  instanceCount : ClassId → Nat
  isClosed : Bool

/-- Makes the method record of a class for types that ask for it. -/
structure Deriver where
  /-- The name of the class under which runs are logged, if they are. -/
  label : Option String := none
  derive : TypeCon → Inquiry → Except ClassError MethodRecord

namespace Deriver

/-- Always the same record. -/
def const (record : MethodRecord) : Deriver where
  derive _ _ := .ok record

/-- A logged deriver that wants an instance of another class to exist, if one is given. -/
def requiring (label : String) (needs : Option ClassId) (record : MethodRecord) : Deriver where
  label := some label
  derive ty registry :=
    match needs with
    | some c => (registry.lookup c ty).map fun _ => record
    | none => .ok record

end Deriver

structure ClassDecl where
  name : String
  superclasses : List ClassId := []
  methods : List String := []
  deriver : Option Deriver := none

namespace ClassDecl

def hasMethod (d : ClassDecl) (name : String) : Bool := d.methods.contains name

def isDerivable (d : ClassDecl) : Bool := d.deriver.isSome

end ClassDecl

structure ClassEntry where
  id : ClassId := ⟨0⟩
  decl : ClassDecl
  /-- The method records of the types that belong to the class. -/
  instances : List (TypeCon × MethodRecord) := []

structure Registry where
  /-- In the order of declaration. -/
  entries : List ClassEntry := []
  /-- The ids of the classes by name. -/
  ids : List (String × ClassId) := []
  isClosed : Bool := false

namespace Registry

def empty : Registry := {}

instance : Inhabited Registry := ⟨empty⟩

def close (r : Registry) : Registry := { r with isClosed := true }

def ensureOpen (r : Registry) : Except ClassError Unit :=
  if r.isClosed then .error .closed else .ok ()

def entry (r : Registry) (c : ClassId) : Except ClassError ClassEntry :=
  match r.entries[c.index]? with
  | some e => .ok e
  | none => .error (.unknownClass c.index)

/-- The declaration of a class. -/
def decl (r : Registry) (c : ClassId) : Except ClassError ClassDecl :=
  return (← r.entry c).decl

def info (r : Registry) (c : ClassId) : Except ClassError ClassInfo := do
  let e ← r.entry c
  return {
    id := e.id
    name := e.decl.name
    superclasses := e.decl.superclasses
    methods := e.decl.methods
    derivable := e.decl.isDerivable }

def classByName? (r : Registry) (name : String) : Option ClassId := r.ids.lookup name

/-- The record of a class for a type, if there is one. -/
def instance? (r : Registry) (c : ClassId) (ty : TypeCon) : Option MethodRecord :=
  r.entries[c.index]?.bind fun e => e.instances.lookup ty

def hasInstance (r : Registry) (c : ClassId) (ty : TypeCon) : Bool := (r.instance? c ty).isSome

def instanceCount (r : Registry) (c : ClassId) : Nat :=
  match r.entries[c.index]? with
  | some e => e.instances.length
  | none => 0

def lookup (r : Registry) (c : ClassId) (ty : TypeCon) : Except ClassError MethodRecord := do
  let e ← r.entry c
  match e.instances.lookup ty with
  | some record => .ok record
  | none => .error (.missingInstance e.decl.name ty.name)

/-- Declares a class: its name is new and its superclasses are declared. -/
def declare (r : Registry) (d : ClassDecl) : Except ClassError (ClassId × Registry) := do
  r.ensureOpen
  if (r.classByName? d.name).isSome then
    .error (.duplicateClass d.name)
  d.superclasses.forM fun c => discard (r.entry c)
  let id : ClassId := ⟨r.entries.length⟩
  return (id, { r with
    entries := r.entries ++ [{ id, decl := d }]
    ids := (d.name, id) :: r.ids })

/-- The record of a class for a type is admitted if every superclass has an instance for the
type, the class has none yet, and the record implements the methods of the class and no others.
-/
def accept (r : Registry) (c : ClassId) (ty : TypeCon) (record : MethodRecord) :
    Except ClassError ClassDecl := do
  r.ensureOpen
  let e ← r.entry c
  let d := e.decl
  if let some dependency := d.superclasses.find? fun s => !r.hasInstance s ty then
    .error (.missingDependency d.name (← r.decl dependency).name ty.name)
  if (e.instances.lookup ty).isSome then
    .error (.duplicateInstance d.name ty.name)
  if let some missing := d.methods.find? fun m => (record.get? m).isNone then
    .error (.incompleteInstance d.name ty.name missing)
  if let some extra := record.names.find? fun m => !d.hasMethod m then
    .error (.unknownMethod d.name extra)
  return d

/-- The registry with one more record. -/
def insert (r : Registry) (c : ClassId) (ty : TypeCon) (record : MethodRecord) : Registry :=
  { r with
    entries := r.entries.modify c.index fun e =>
      { e with instances := (ty, record) :: e.instances } }

/-- The deriver of a class. -/
def deriver (r : Registry) (c : ClassId) (ty : TypeCon) : Except ClassError Deriver := do
  let d ← r.decl c
  match d.deriver with
  | some deriver => .ok deriver
  | none => .error (.notDerivable d.name ty.name)

/-- The registry as derivers see it. -/
def inquiry (r : Registry) : Inquiry where
  info := r.info
  classByName? := r.classByName?
  lookup := r.lookup
  hasInstance := r.hasInstance
  instanceCount := r.instanceCount
  isClosed := r.isClosed

end Registry

end Overload
