import DebianPackaging.Debhelper.Compat
import DebianPackaging.Relation.Floor

/-!
This module contains the dependencies of a package on debhelper: the edit that makes it build with some
version of debhelper at least, and the add-ons that it asks for by build dependencies.
-/

namespace DebianPackaging

def debhelperPackage : Text := "debhelper"

def partialBuildDependsFields : List Text := ["Build-Depends-Arch", "Build-Depends-Indep"]

def sequenceStart : Text := "dh-sequence-"

namespace Entry

def isOnDebhelper (e : Entry) : Bool :=
  e.names.contains debhelperPackage || e.names.contains compatPackage

end Entry

namespace RelationField

/-- Whether a dependency on the compat level makes up for one on debhelper in at least the version
`minimum`. Such a dependency has to be exact and without alternatives. -/
def compatSuffices (minimum : Version) : List Entry → Except Error Bool
  | [] => .ok false
  | e :: es =>
    if !e.names.contains compatPackage then compatSuffices minimum es
    else if !e.others.isEmpty then .error .complexCompatRule
    else
      match e.first.spelled.relation.constraint with
      | none => .error .compatWithoutVersion
      | some c =>
        if c.op != ("=" : Text) then .error .complexCompatRule
        else do
          if (← Version.read c.version).atLeast minimum then return true
          compatSuffices minimum es

end RelationField

namespace PackageMetadata

def checkFields (p : PackageMetadata) : List Text → Except Error Unit
  | [] => .ok ()
  | field :: fields => do
    if (← p.relations field).entries.any (·.isOnDebhelper) then throw (.debhelperInField field)
    p.checkFields fields

def ensureDebhelper (p : PackageMetadata) (minimum : Text)
    : Except Error (PackageMetadata × Bool) := do
  let version ← Version.read minimum
  p.checkFields partialBuildDependsFields
  let f ← p.relations buildDependsField
  if ← RelationField.compatSuffices version f.entries then return (p, false)
  let (f, result) := f.ensureVersion debhelperPackage version
  if ← result then return ((← p.setRelations buildDependsField f).1, true)
  return (p, false)

def sequences (p : PackageMetadata) : Except Error (List Text) := do
  let relations := (← p.relations buildDependsField).entries.flatMap (·.relations)
  return relations.filterMap fun r => Text.after? sequenceStart r.name

end PackageMetadata

end DebianPackaging
