import DebianPackaging.Files.Tree

/-!
This module contains documents that were read from a file and are written back to it. A file is written
only if its text is not the text of the document already.
-/

namespace DebianPackaging

structure OpenDocument (δ : Type) where
  path : Option Text
  document : δ

def OpenDocument.map (f : δ → ε) (d : OpenDocument δ) : OpenDocument ε :=
  { path := d.path, document := f d.document }

def FileTree.differs (tree : FileTree) (path : Option Text) (text : Text) : Except Error Bool :=
  match path with
  | none => .error (.notFromFile .compare)
  | some path => do return (← tree.readText? path) != some text

/-- Work on files that can fail. What was written before a failure stays written. -/
abbrev FileWork := EStateM Error FileTree

namespace FileWork

def ask (f : FileTree → Except Error α) : FileWork α := fun tree =>
  match f tree with
  | .ok a => .ok a tree
  | .error e => .error e tree

/-- Write to a file. A file that cannot be opened for writing is not written to. -/
def writeText (path t : Text) : FileWork Unit := do
  set (← ask fun tree => tree.writeText path t)

def commit (path : Option Text) (text : Text) : FileWork Bool :=
  match path with
  | none => throw (.notFromFile .commit)
  | some path => do
    if (← ask fun tree => tree.readText? path) == some text then return false
    writeText path text
    return true

end FileWork

def FileTree.commit (tree : FileTree) (path : Option Text) (text : Text)
    : Except Error (FileTree × Bool) :=
  match (FileWork.commit path text).run tree with
  | .ok written tree => .ok (tree, written)
  | .error e _ => .error e

end DebianPackaging
