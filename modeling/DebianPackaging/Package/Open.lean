import DebianPackaging.Files.Document
import DebianPackaging.Makefile.Override
import DebianPackaging.Package.Layout
import DebianPackaging.Package.Metadata

/-!
This module contains the opening of the documents of a package. The metadata of a package is its manifest
if it has one, and its control file otherwise.
-/

namespace DebianPackaging

def ControlDocument.openFile (tree : FileTree) (path : Text)
    : Except Error (OpenDocument ControlDocument) := do
  let text := (FileTree.decode (← tree.readBytes path)).toOption
  match text.bind fun t => readLines? t.feedLines with
  | some document => return { path := some path, document }
  | none => throw (.unreadable path)

def Manifest.openFile (tree : FileTree) (path : Text) : Except Error (OpenDocument Manifest) := do
  return { path := some path, document := ← read path (← tree.readText path) none }

def Manifest.openPackage (tree : FileTree) (directory : Text)
    : Except Error (OpenDocument Manifest) := do
  let path := PackageLayout.manifestFile directory
  let text ← tree.readText path
  let cargo ← tree.readText? (PackageLayout.cargoFile directory)
  return { path := some path, document := ← read path text cargo }

def Makefile.openFile (tree : FileTree) (path : Text) : Except Error (OpenDocument Makefile) := do
  return { path := some path, document := read (← tree.readText path) }

def Makefile.openPackage (tree : FileTree) (directory : Text)
    : Except Error (OpenDocument Makefile) :=
  openFile tree (PackageLayout.rulesFile directory)

def Makefile.usesCdbs (tree : FileTree) (path : Text) : Except Error Bool := do
  return (← tree.readText? path).any includesCdbs

namespace PackageMetadata

def openControl (tree : FileTree) (path : Text) : Except Error (OpenDocument PackageMetadata) := do
  return (← ControlDocument.openFile tree path).map .control

def openManifest (tree : FileTree) (path : Text) : Except Error (OpenDocument PackageMetadata) := do
  return (← Manifest.openFile tree path).map .manifest

def openPackage (tree : FileTree) (directory : Text)
    : Except Error (OpenDocument PackageMetadata) := do
  if tree.hasPath (PackageLayout.manifestFile directory) then
    return (← Manifest.openPackage tree directory).map .manifest
  openControl tree (PackageLayout.controlFile directory)

end PackageMetadata

end DebianPackaging
