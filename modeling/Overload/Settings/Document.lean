import Overload.Settings.Basic
import Overload.Toml.Reader

/-!
# Settings from a document

Settings are written as a TOML document with the tables `trace` and `typed_fn`. Entries that are
missing have their defaults, and entries with other names are ignored. In place of a table an
array may list the settings in order.
-/

namespace Overload

inductive SettingsError where
  /-- There is no document, or it is no text. -/
  | unreadable
  | malformed
  deriving DecidableEq, Repr

namespace Settings

open Toml (Node Table)

/-- A switch, with its value if nothing is said about it. -/
def switch? (default : Bool) : Option Node → Option Bool
  | none => some default
  | some (.bool b) => some b
  | some _ => none

/-- The entries of a group of settings by name, with their defaults, as a table or an array gives
them. A moment in time counts as a table without known entries. -/
def group? (names : List String) (default : Bool) : Option Node → Option (List Bool)
  | none | some .datetime => some (names.map fun _ => default)
  | some (.table _ t) | some (.inlined t) => names.mapM fun name => switch? default (t.lookup name)
  | some (.array items) => (names.zipIdx).mapM fun (_, i) => switch? default items[i]?
  | some _ => none

def ofTable? (t : Table) : Option Settings := do
  match ← group? ["unify", "calls", "dispatch", "registry"] false (t.lookup "trace"),
      ← group? ["check_constraints", "check_result"] true (t.lookup "typed_fn") with
  | [unify, calls, dispatch, registry], [checkConstraints, checkResult] =>
      some { trace := { unify, calls, dispatch, registry }, checkConstraints, checkResult }
  | _, _ => none

def parse (text : String) : Except SettingsError Settings :=
  match (Toml.parse? text).bind ofTable? with
  | some s => .ok s
  | none => .error .malformed

/-- The settings in a file with that content, if there is such a file. -/
def ofFile : Option ByteArray → Except SettingsError Settings
  | none => .error .unreadable
  | some bytes =>
      match String.fromUTF8? bytes with
      | some text => parse text
      | none => .error .unreadable

end Settings

end Overload
