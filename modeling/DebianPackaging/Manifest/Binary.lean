import DebianPackaging.Control.Vcs
import DebianPackaging.Manifest.Basic
import DebianPackaging.Text.Line

/-!
This module contains the binary packages of a manifest: the library package, and the package of the
programs if there is one. Each has a table in the manifest that overrides what follows from the crate.
-/

namespace DebianPackaging

open Toml (Found)

inductive BinaryKind where
  | library
  | programs
  deriving DecidableEq, Repr

namespace BinaryKind

def key : BinaryKind → Text
  | library => "lib"
  | programs => "bin"

end BinaryKind

structure CrateBinary where
  kind : BinaryKind
  name : Text
  crate : Text
  deriving DecidableEq, Repr

namespace Manifest

def programsName (m : Manifest) (crate : Text) : Text :=
  match m.document.lookUp ["bin_name"] with
  | .value v => v.shown
  | _ => crate

/-- The binary packages. There are none if the names cannot be told. -/
def binaries (m : Manifest) : Except Error (List CrateBinary) := do
  let name ← m.crateName?
  let suffix ← m.versionSuffix?
  match name, suffix with
  | some crate, some suffix =>
    let library : CrateBinary := ⟨.library, Crate.libraryPackage crate suffix, crate⟩
    if m.isTrue "bin" !m.hasVersionSuffix then
      return [library, ⟨.programs, m.programsName crate, crate⟩]
    else return [library]
  | _, _ => return []

def binaryText? (m : Manifest) (b : CrateBinary) (key : Text) : Except Error (Option Text) :=
  (m.document.get ["packages", b.kind.key, key]).map (·.string?)

def binarySummary? (m : Manifest) (b : CrateBinary) : Except Error (Option Text) := do
  match ← m.binaryText? b "summary" with
  | some t => return some t
  | none => m.summary?

def defaultDescription (b : CrateBinary) : Text :=
  match b.kind with
  | .library => "Source code for Debianized Rust crate \"" ++ b.crate ++ "\""
  | .programs =>
    "This package contains the source for the Rust " ++ b.crate ++
      " crate, packaged by debcargo for use with cargo and dh-cargo."

def longDescription (m : Manifest) (b : CrateBinary) : Except Error Text := do
  match ← m.binaryText? b "description" with
  | some t => return t
  | none => return m.description?.getD (defaultDescription b)

def binaryDescription? (m : Manifest) (b : CrateBinary) : Except Error (Option Text) := do
  let summary ← m.binarySummary? b
  let long ← m.longDescription b
  return summary.map fun summary => formatDescription summary long.bareLines

def versionEndings (hasSuffix : Bool) (v : CrateVersion) : List Text :=
  (if hasSuffix then [] else [[]]) ++
    [ '-' :: Text.ofNat v.major, '-' :: v.pair, '-' :: v.numbers ]

def featureEndings (features : List Text) : List Text :=
  [] :: "+default" :: features.map ('+' :: ·)

/-- The packages that the library package provides: one for each way to ask for a version and a feature
of the crate, in order, without its own name. -/
def providedNames (b : CrateBinary) (hasSuffix : Bool) (v : CrateVersion) (features : List Text)
    : List Text :=
  let names :=
    (versionEndings hasSuffix v).flatMap fun version =>
      (featureEndings features).map fun feature => Crate.libraryPackage b.crate (version ++ feature)
  ((names.filter (· != b.name)).mergeSort Text.le).eraseDups

def sameBuild (name : Text) : Text := name ++ " (= $\x7bbinary:Version\x7d)"

def provides? (m : Manifest) (b : CrateBinary) : Except Error (Option Text) := do
  match ← m.crateVersion?, b.kind with
  | some v, .library =>
    match providedNames b m.hasVersionSuffix v (← m.features) with
    | [] => return none
    | names => return some ('\n' :: Text.join ",\n " (names.map sameBuild))
  | _, _ => return none

end Manifest

end DebianPackaging
