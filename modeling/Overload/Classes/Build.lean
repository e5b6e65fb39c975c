import Overload.Classes.Registry
import Overload.Trace

/-!
# Building a registry

The operations of a registry as steps that report what they do: each registration is traced,
each run of a labelled deriver is logged. A step that fails leaves the registry as it was.
-/

namespace Overload

/-- One run of a piece of host code. -/
inductive Invocation where
  | call (name : String)
  | derive (className typeName : String)
  deriving DecidableEq, Repr

structure Building where
  registry : Registry := {}
  trace : Trace := {}
  /-- The runs so far, oldest first. -/
  log : Array Invocation := #[]

abbrev Build := EStateM ClassError Building

namespace Build

/-- Takes over the outcome of a question to the registry. -/
def check (f : Registry → Except ClassError α) : Build α := do
  match f (← get).registry with
  | .ok a => return a
  | .error e => throw e

def declare (d : ClassDecl) : Build ClassId := do
  let (c, registry) ← check (·.declare d)
  modify ({ · with registry })
  return c

def register (c : ClassId) (ty : TypeCon) (record : MethodRecord) : Build Unit := do
  let d ← check (·.accept c ty record)
  modify fun b =>
    let trace :=
      if b.trace.enabled .registry then b.trace.push (.registered d.name ty.name) else b.trace
    { b with trace, registry := b.registry.insert c ty record }

def derive (c : ClassId) (ty : TypeCon) : Build Unit := do
  let d ← check (·.deriver c ty)
  if let some label := d.label then
    modify fun b => { b with log := b.log.push (.derive label ty.name) }
  let record ← check fun r => d.derive ty r.inquiry
  register c ty record

end Build

end Overload
