import DebianPackaging.Text.Blank

/-!
This module contains relations, the smallest parts of relationship fields: a package name together
with the versions, architectures and build profiles that it is limited to. A relation is written
`name:archqual (op version) [archs] <profiles>`.
-/

namespace DebianPackaging

structure Constraint where
  op : Text
  version : Text
  deriving DecidableEq, Repr

structure Relation where
  name : Text
  archqual : Option Text := none
  constraint : Option Constraint := none
  archs : List Text := []
  profiles : List (List Text) := []
  deriving DecidableEq, Repr

namespace Relation

def renderArchqual : Option Text → Text
  | some (c :: q) => ':' :: c :: q
  | _ => []

def renderConstraint (c : Constraint) : Text := " (" ++ c.op ++ " " ++ c.version ++ ")"

def renderArchs (archs : List Text) : Text :=
  if archs.isEmpty then [] else " [" ++ Text.join " " archs ++ "]"

def renderProfiles (group : List Text) : Text := "<" ++ Text.join " " group ++ ">"

def renderAllProfiles (groups : List (List Text)) : Text :=
  if groups.isEmpty then [] else ' ' :: Text.join " " (groups.map renderProfiles)

def render (r : Relation) : Text :=
  r.name ++ renderArchqual r.archqual ++ (r.constraint.map renderConstraint).getD [] ++
    renderArchs r.archs ++ renderAllProfiles r.profiles

end Relation

/-- A relation together with the text that it was read from, for as long as the text holds. -/
structure SpelledRelation where
  relation : Relation
  spelling : Option Text
  deriving DecidableEq, Repr

namespace SpelledRelation

/-- The text of a relation: what it was read from, or its canonical form once it was changed. -/
def text (r : SpelledRelation) : Text := r.spelling.getD r.relation.render

def setConstraint (r : SpelledRelation) (c : Option Constraint) : SpelledRelation where
  relation := { r.relation with constraint := c }
  spelling := none

end SpelledRelation

end DebianPackaging
