import DebianPackaging.Package.Open
import DebianPackaging.Text.Decimal

/-!
This module contains the compat level of a package, the version of the behaviour that it expects of
debhelper. It is declared by a field, by a build dependency or by a file of its own.
-/

namespace DebianPackaging

def compatPackage : Text := "debhelper-compat"

namespace Compat

def read? (t : Text) : Option Int := Text.readInt? (Text.before '#' t)

/-- Read a file with a compat level. A missing file has none. -/
def ofFile? (tree : FileTree) (path : Text) : Except Error (Option Int) := do
  return (← tree.readText? path).bind read?

end Compat

namespace RelationField

def firstOn? (f : RelationField) (name : Text) : Option Relation :=
  (f.entries.flatMap (·.relations)).find? fun r => r.name == name

end RelationField

namespace PackageMetadata

/-- The compat level that a source package declares: by a field, or else by a build dependency. -/
def compatLevel? (p : PackageMetadata) : Except Error (Option Int) := do
  match ← p.compatText? with
  | some t => return Compat.read? t
  | none =>
    let relation := (← p.relations buildDependsField).firstOn? compatPackage
    return (relation.bind (·.constraint)).bind fun c => Compat.read? c.version

/-- The compat level of an opened package: what it declares, or else what its file says. -/
def resolveCompatLevel? (p : PackageMetadata) (tree : FileTree) (directory : Text)
    : Except Error (Option Int) := do
  let declared ← if p.hasSource then p.compatLevel? else .ok none
  match declared with
  | some level => return some level
  | none => Compat.ofFile? tree (PackageLayout.compatFile directory)

end PackageMetadata

namespace Compat

/-- The compat level that the control file of the package in a directory declares. A missing file
declares none. -/
def declaredLevel? (tree : FileTree) (directory : Text) : Except Error (Option Int) :=
  match PackageMetadata.openControl tree (PackageLayout.controlFile directory) with
  | .error (.fileNotFound _) => .ok none
  | .error e => .error e
  | .ok d => if d.document.hasSource then d.document.compatLevel? else .ok none

/-- The compat level of the package in a directory: what its file says, or else what its control file
declares. -/
def levelOf? (tree : FileTree) (directory : Text) : Except Error (Option Int) := do
  match ← ofFile? tree (PackageLayout.compatFile directory) with
  | some level => return some level
  | none => declaredLevel? tree directory

end Compat

end DebianPackaging
