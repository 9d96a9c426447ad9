import DebianPackaging.CommandLine.Command
import DebianPackaging.Debhelper.Dependency
import DebianPackaging.Debhelper.Levels

/-!
This module contains what the commands do. Each is a course of steps that read the files, edit what was
read and write it back, and a step that fails ends the command there: what was done before stays done.
-/

namespace DebianPackaging

structure World where
  tree : FileTree
  levels : Option SupportedLevels

inductive Failure where
  | inapplicable (message : Text)
  | error (e : Error)
  deriving DecidableEq, Repr

structure Answer where
  shown : List Text := []
  report : Option Text := none

abbrev Action := EStateM Failure World

namespace Action

def lift (x : Except Error α) : Action α :=
  match x with
  | .ok a => pure a
  | .error e => throw (.error e)

def onFiles (x : FileWork α) : Action α := fun w =>
  match x.run w.tree with
  | .ok a tree => .ok a { w with tree }
  | .error e tree => .error (.error e) { w with tree }

def ask (f : FileTree → Except Error α) : Action α := onFiles (.ask f)

/-- Ask for what the compat levels tell, and keep those that become known. -/
def onLevels (f : Option SupportedLevels → Option SupportedLevels × Except Error α) : Action α :=
  fun w =>
    let (levels, x) := f w.levels
    lift x { w with levels }

end Action

structure Workplace where
  directory : Text
  assistant : AssistantRun

namespace Workplace

def checkPackage (w : Workplace) : Action Unit := do
  let packaging := PackageLayout.packaging w.directory
  if ← Action.ask fun tree => .ok (tree.hasDirectory packaging) then return
  throw <| .inapplicable <|
    "Expected a source package root; " ++ packaging ++ " does not exist or is not a directory."

/-- Open a document of the package, where `explain` tells of a file that is not there. -/
def openDocument (w : Workplace) (f : FileTree → Except Error (OpenDocument δ))
    (explain : Text → Text) : Action (OpenDocument δ) := do
  w.checkPackage
  match ← Action.ask fun tree => .ok (f tree) with
  | .ok d => return d
  | .error (.fileNotFound path) => throw (.inapplicable (explain path))
  | .error e => throw (.error e)

def openMetadata (w : Workplace) : Action (OpenDocument PackageMetadata) := do
  let d ← w.openDocument (PackageMetadata.openPackage · w.directory) fun path =>
    "Cannot open the package metadata: \"" ++ path ++ "\" does not exist."
  if d.document.hasSource then return d
  throw (.inapplicable "The package metadata does not have a source package")

def openRules (w : Workplace) : Action (OpenDocument Makefile) :=
  w.openDocument (Makefile.openPackage · w.directory) fun _ =>
    PackageLayout.rulesFile w.directory ++ " does not exist."

def commit (path : Option Text) (text edit : Text) : Action Answer := do
  let written ← Action.onFiles (.commit path text)
  let outcome : Text := if written then "Updated " ++ path.getD [] else "No changes needed"
  return { report := some (outcome ++ " (" ++ edit ++ ")") }

def showMetadata (w : Workplace) (f : PackageMetadata → Action (List Text)) : Action Answer := do
  let d ← w.openMetadata
  return { shown := ← f d.document }

def editMetadata (w : Workplace) (name : Text)
    (edit : PackageMetadata → Except Error PackageMetadata) : Action Answer := do
  let d ← w.openMetadata
  let new ← Action.lift (edit d.document)
  commit d.path new.text name

def editRules (w : Workplace) (edit : Makefile → Makefile × Text) : Action Answer := do
  let d ← w.openRules
  let (new, name) := edit d.document
  commit d.path new.text name

def editInvocations (w : Workplace) (name : Text) (edit : Text → Text) : Action Answer :=
  w.editRules fun m => ((m.updateDhInvocations edit).1, name)

/-- The compat level of the package. A package without metadata can have one as well. -/
def compatLevel? (w : Workplace) (tree : FileTree) : Except Error (Option Int) :=
  match PackageMetadata.openPackage tree w.directory with
  | .error (.fileNotFound _) => Compat.levelOf? tree w.directory
  | .error e => .error e
  | .ok d => d.document.resolveCompatLevel? tree w.directory

end Workplace

namespace Command

def perform (w : Workplace) : Command → Action Answer
  | compatLevel => do
    w.checkPackage
    match ← Action.ask w.compatLevel? with
    | some level => return { shown := [Text.ofInt level] }
    | none => throw (.inapplicable "Could not determine the debhelper compat level of the package")
  | ensureDebhelper version =>
    w.editMetadata ("debhelper >= " ++ version) fun p => do return (← p.ensureDebhelper version).1
  | sequences => w.showMetadata fun p => Action.lift p.sequences
  | ensureBuildDependency relation =>
    w.editMetadata ("build dependency " ++ relation) fun p => do
      return (← p.ensureBuildDependency (← Entry.read relation)).1
  | highestCompatLevel release => do
    let level ← Action.onLevels (Release.highestCompatLevel · w.assistant release)
    return { shown := [Text.ofInt level] }
  | showVcs type =>
    w.showMetadata fun p => do
      match ← Action.lift (p.vcsUrl? type) with
      | some url => return [url]
      | none => throw (.inapplicable ("The package has no Vcs-" ++ type ++ " field"))
  | setVcs type url => w.editMetadata ("Vcs-" ++ type) fun p => p.setVcsUrl type url
  | dropPointlessOverrides =>
    w.editRules fun m =>
      let (m, n) := m.discardOverrides
      (m, Text.ofNat n ++ " pointless override(s) removed")
  | addOns => do
    let d ← w.openRules
    return { shown := d.document.dhInvocations.flatMap DhCommand.getWith }
  | addAddOn name => w.editInvocations ("--with " ++ name) fun line => DhCommand.addWith line name
  | dropAddOn name =>
    w.editInvocations ("--with " ++ name ++ " removed") fun line => DhCommand.dropWith line name

end Command

end DebianPackaging
