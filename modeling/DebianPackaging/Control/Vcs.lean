import DebianPackaging.Control.Document

/-!
This module contains the `Vcs-*` fields, which hold the addresses of the repository of a package.
-/

namespace DebianPackaging

namespace Vcs

def spellings : List (Text × Text) := [("arch", "Arch"), ("browser", "Browser"), ("bzr", "Bzr"),
  ("cvs", "Cvs"), ("darcs", "Darcs"), ("git", "Git"), ("hg", "Hg"), ("mtn", "Mtn"), ("svn", "Svn")]

def canonicalType (type : Text) : Text :=
  let lowered := type.lower
  (spellings.lookup lowered).getD lowered.capitalizeFirst

def fieldStart : Text := "Vcs-"

def fieldName (type : Text) : Text := fieldStart ++ canonicalType type

end Vcs

namespace Paragraph

def vcsUrl? (p : Paragraph) (type : Text) : Option Text := p.get? (Vcs.fieldName type)

def setVcsUrl (p : Paragraph) (type url : Text) : Except Error Paragraph :=
  if p.vcsUrl? type = some url then .ok p else p.set (Vcs.fieldName type) url

end Paragraph

/-- Lay out a description: the long description follows the summary, each line behind a space, with a
dot in place of an empty line. -/
def formatDescription (summary : Text) (long : List Text) : Text :=
  Text.join "\n" (summary :: long.map fun line =>
    match line.trimEnd with
    | [] => " ."
    | c :: t => ' ' :: c :: t)

end DebianPackaging
