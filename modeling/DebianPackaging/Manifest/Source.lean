import DebianPackaging.Control.Vcs
import DebianPackaging.Manifest.Basic

/-!
This module contains the `source` table of a manifest, which holds the fields of the source package. A
field that is missing has the value that is derived from the crate or that all packages share.
-/

namespace DebianPackaging

open Toml (Document Found Value)

namespace Manifest

def sourceTable : Text := "source"

def sourceKey (m : Manifest) (key : Text) : Except Error Found := m.document.get [sourceTable, key]

def sourceText? (m : Manifest) (key : Text) : Except Error (Option Text) :=
  (m.sourceKey key).map (·.string?)

/-- A text of the table, or another one if it is missing or empty. -/
def sourceTextOr (m : Manifest) (key missing : Text) : Except Error Text := do
  match ← m.sourceText? key with
  | some (c :: t) => return c :: t
  | _ => return missing

def sourceTexts? (m : Manifest) (key : Text) : Except Error (Option (List Text)) := do
  return (← m.sourceKey key).items?.map fun vs => vs.filterMap (·.string?)

def setSourceKey (m : Manifest) (key : Text) (v : Value) : Except Error Manifest := do
  return { m with document := ← m.document.set sourceTable key v }

def setSourceText (m : Manifest) (key text : Text) : Except Error Manifest :=
  if (m.document.lookUp [sourceTable, key]).string? = some text then .ok m
  else m.setSourceKey key (.ofText text)

/-- Make an array of the table hold texts. An array that is there keeps the layout of the items that stay
in it. -/
def setSourceTexts (m : Manifest) (key : Text) (new : List Text) : Except Error Manifest := do
  match ← m.sourceKey key with
  | .value (.array cells) =>
    let old := (Toml.Cell.items cells).map (·.shown)
    if old = new then return m
    let script := (EditScript.between old new).map (EditStep.map Value.ofText)
    m.setSourceKey key (.array (Toml.Cell.update 0 script cells))
  | _ => m.setSourceKey key (.ofTexts new)

def sourceName? (m : Manifest) : Except Error (Option Text) := do
  let name ← m.crateName?
  let suffix ← m.versionSuffix?
  return name.bind fun name => suffix.map (Crate.sourcePackage name)

def standardsVersion (m : Manifest) : Except Error Text := m.sourceTextOr "standards-version" "4.5.1"

def archiveSection (m : Manifest) : Except Error Text := m.sourceTextOr "section" "rust"

def priority (m : Manifest) : Except Error Text := m.sourceTextOr "priority" "optional"

def maintainer (m : Manifest) : Except Error Text :=
  m.sourceTextOr "maintainer"
    "Debian Rust Maintainers <pkg-rust-maintainers@alioth-lists.debian.net>"

def homepage? (m : Manifest) : Except Error (Option Text) := do
  match ← m.sourceText? "homepage" with
  | some t => return some t
  | none => m.packageText? "homepage"

/-- An address of the repository, or else of the directory of the crate in the common repository. -/
def repository? (m : Manifest) (key before behind : Text) : Except Error (Option Text) := do
  match ← m.sourceText? key with
  | some t => return some t
  | none => return (← m.crateName?).map fun name => before ++ name.lower ++ behind

def gitUrl? (m : Manifest) : Except Error (Option Text) :=
  m.repository? "vcs_git" "https://salsa.debian.org/rust-team/debcargo-conf.git [src/" "]"

def browserUrl? (m : Manifest) : Except Error (Option Text) :=
  m.repository? "vcs_browser" "https://salsa.debian.org/rust-team/debcargo-conf/tree/master/src/" []

def requiresRoot (m : Manifest) : Except Error Bool := do
  match ← m.sourceKey "requires_root" with
  | .value (.boolean b) => return b
  | found => return (found.string?.map fun t => t.lower != ("no" : Text)).getD false

def uploaders? (m : Manifest) : Except Error (Option (List Text)) := m.sourceTexts? "uploaders"

def setUploaders (m : Manifest) (new : List Text) : Except Error Manifest := do
  if (← m.uploaders?) = some new then return m
  m.setSourceTexts "uploaders" new

def extraLines (m : Manifest) : Except Error (List Text) := do
  return (← m.sourceTexts? "extra_lines").getD []

def extraValue? (field line : Text) : Option Text := do
  let rest ← Text.afterFolded? (field ++ [':']) line
  let value := rest.trimStart.takeWhile (· != '\n')
  if Text.isEnd (rest.trimStart.drop value.length) then some value else none

def extraField? (m : Manifest) (field : Text) : Except Error (Option Text) := do
  return (← m.extraLines).findSome? (extraValue? field)

/-- Put a line in place of the first one that gives the field a value, or at the end. -/
def putLine (field line : Text) (cells : List (Toml.Cell Value)) : List (Toml.Cell Value) :=
  let items := Toml.Cell.items cells
  match items.findIdx? fun v => (v.string?.bind (extraValue? field)).isSome with
  | none => Toml.Cell.insert items.length (.ofText line) cells
  | some i =>
    if items[i]?.bind (·.string?) = some line then cells
    else Toml.Cell.assign i (.ofText line) cells

def setExtraField (m : Manifest) (field value : Text) : Except Error Manifest := do
  let line := field ++ ": " ++ value
  match ← m.sourceKey "extra_lines" with
  | .nothing => m.setSourceKey "extra_lines" (.ofTexts [line])
  | .value (.array cells) => m.setSourceKey "extra_lines" (.array (putLine field line cells))
  | .value (.string _ _) => throw .notATable
  | .tables => throw .notATableItem
  | _ => throw .notAssignable

def vcsUrl? (m : Manifest) (type : Text) : Except Error (Option Text) :=
  let lowered := type.lower
  if lowered == "git" then m.gitUrl?
  else if lowered == "browser" then m.browserUrl?
  else m.extraField? (Vcs.fieldName type)

def setVcsUrl (m : Manifest) (type url : Text) : Except Error Manifest :=
  let lowered := type.lower
  if lowered == "git" then m.setSourceText "vcs_git" url
  else if lowered == "browser" then m.setSourceText "vcs_browser" url
  else m.setExtraField (Vcs.fieldName type) url

end Manifest

end DebianPackaging
