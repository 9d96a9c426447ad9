import DebianPackaging.Control.Relations
import DebianPackaging.Control.Vcs
import DebianPackaging.Manifest.Binary
import DebianPackaging.Manifest.BuildDepends

/-!
This module contains the metadata of a source package, which is kept in a control file or in a manifest,
and one set of operations for both.
-/

namespace DebianPackaging

inductive PackageMetadata where
  | control (document : ControlDocument)
  | manifest (manifest : Manifest)

def buildDependsField : Text := "Build-Depends"

def compatField : Text := "X-DH-Compat"

namespace ControlDocument

def source (d : ControlDocument) : Except Error Paragraph :=
  match d.sourceParagraph? with
  | some p => .ok p
  | none => .error .noSourceParagraph

def editSource (d : ControlDocument) (edit : Paragraph → Except Error (Paragraph × α))
    : Except Error (ControlDocument × α) := do
  let (p, a) ← edit (← d.source)
  return (d.setParagraph 0 p, a)

def ensureBuildDependency (d : ControlDocument) (e : Entry)
    : Except Error (ControlDocument × Bool) :=
  d.editSource fun p => do
    let (f, changed) := (← p.relations buildDependsField).ensure e
    if changed then p.setRelations buildDependsField f else return (p, false)

end ControlDocument

namespace PackageMetadata

def text : PackageMetadata → Text
  | control d => d.text
  | manifest m => m.text

def hasSource : PackageMetadata → Bool
  | control d => d.sourceParagraph?.isSome
  | manifest _ => true

def sourceName? : PackageMetadata → Except Error (Option Text)
  | control d => do return (← d.source).get? "Source"
  | manifest m => m.sourceName?

def isBuildDepends (field : Text) : Bool := sameName field buildDependsField

def relations (field : Text) : PackageMetadata → Except Error RelationField
  | control d => do (← d.source).relations field
  | manifest m => if isBuildDepends field then m.buildDepends else .ok {}

def setRelations (field : Text) (f : RelationField)
    : PackageMetadata → Except Error (PackageMetadata × Bool)
  | control d => do
    let (d, changed) ← d.editSource fun p => p.setRelations field f
    return (control d, changed)
  | manifest m => do
    if isBuildDepends field then
      if (← m.buildDepends).text = f.text then return (manifest m, false)
      return (manifest (← m.setBuildDepends f), true)
    if f.entries.isEmpty then return (manifest m, false)
    throw (.noManifestField field)

def ensureBuildDependency (e : Entry) : PackageMetadata → Except Error (PackageMetadata × Bool)
  | control d => do
    let (d, changed) ← d.ensureBuildDependency e
    return (control d, changed)
  | manifest m => do
    let (m, changed) ← m.ensureBuildDependency e
    return (manifest m, changed)

def editSource (editParagraph : Paragraph → Except Error Paragraph)
    (editManifest : Manifest → Except Error Manifest)
    : PackageMetadata → Except Error PackageMetadata
  | control d => do
    let (d, _) ← d.editSource fun p => (editParagraph p).map fun p => (p, ())
    return control d
  | manifest m => (editManifest m).map manifest

def setMaintainer (name : Text) : PackageMetadata → Except Error PackageMetadata :=
  editSource
    (fun p => if p.get? "Maintainer" = some name then .ok p else p.set "Maintainer" name)
    fun m => m.setSourceText "maintainer" name

def setUploaders (names : List Text) : PackageMetadata → Except Error PackageMetadata :=
  editSource (fun p => p.setList "Uploaders" names) fun m => m.setUploaders names

def vcsUrl? (type : Text) : PackageMetadata → Except Error (Option Text)
  | control d => do return (← d.source).vcsUrl? type
  | manifest m => m.vcsUrl? type

def setVcsUrl (type url : Text) : PackageMetadata → Except Error PackageMetadata :=
  editSource (fun p => p.setVcsUrl type url) fun m => m.setVcsUrl type url

/-- The text of the field that can hold the compat level; a manifest has no such field. -/
def compatText? : PackageMetadata → Except Error (Option Text)
  | control d => do return (← d.source).get? compatField
  | manifest _ => .ok none

def binaryNames : PackageMetadata → Except Error (List Text)
  | control d => .ok (d.binaryParagraphs.filterMap fun p => p.get? "Package")
  | manifest m => do return (← m.binaries).map (·.name)

def wrapAndSort : PackageMetadata → PackageMetadata × Except Error Bool
  | control d =>
    let (d, result) := d.wrapAndSort
    (control d, result)
  | manifest m => (manifest m, .ok false)

end PackageMetadata

end DebianPackaging
