import DebianPackaging.Crate.Name
import DebianPackaging.Crate.Version
import DebianPackaging.Toml.Conflict
import DebianPackaging.Toml.Edit
import DebianPackaging.Toml.Update

/-!
This module contains manifests: the `debcargo.toml` of a package that is generated from a crate, together
with the `Cargo.toml` of that crate, if it is known. A manifest says little; what it does not say follows
from the crate.
-/

namespace DebianPackaging

open Toml (Document Found Value)

structure Manifest where
  document : Document
  cargo : Option Document

namespace Manifest

def read (name text : Text) (cargo : Option Text) : Except Error Manifest := do
  let document ← Document.read name text
  match cargo with
  | none => return { document, cargo := none }
  | some t => return { document, cargo := some (← Document.read "Cargo.toml" t) }

def text (m : Manifest) : Text := m.document.text

def packageText? (m : Manifest) (key : Text) : Except Error (Option Text) :=
  match m.cargo with
  | none => .ok none
  | some cargo => (cargo.get ["package", key]).map (·.string?)

def crateName? (m : Manifest) : Except Error (Option Text) := m.packageText? "name"

def crateVersion? (m : Manifest) : Except Error (Option CrateVersion) := do
  match ← m.packageText? "version" with
  | none => return none
  | some t => return some (← CrateVersion.read t)

def isTrue (m : Manifest) (key : Text) (missing : Bool) : Bool :=
  match m.document.lookUp [key] with
  | .nothing => missing
  | .value v => v.isTrue
  | .table => !(m.document.keysAt [key]).isEmpty
  | .tables => true

def hasVersionSuffix (m : Manifest) : Bool := m.isTrue "semver_suffix" false

def versionSuffix? (m : Manifest) : Except Error (Option Text) := do
  if !m.hasVersionSuffix then return some []
  return (← m.crateVersion?).map fun v => '-' :: v.pair

def features (m : Manifest) : Except Error (List Text) :=
  match m.cargo with
  | none => .ok []
  | some cargo =>
    if cargo.isLeaf ["features"] then .error .notATable
    else .ok ((cargo.keysAt ["features"]).mergeSort Text.le)

def text? (m : Manifest) (key : Text) : Option Text := (m.document.lookUp [key]).string?

/-- The summary of all packages: that of the manifest, or the first line of the description of the
crate. -/
def summary? (m : Manifest) : Except Error (Option Text) :=
  match m.text? "summary" with
  | some t => .ok (some (t ++ " - Rust source code"))
  | none => (m.packageText? "description").map fun t => t.map (Text.before '\n')

def description? (m : Manifest) : Option Text := m.text? "description"

end Manifest

end DebianPackaging
