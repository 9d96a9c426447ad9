import DebianPackaging.Control.Document
import DebianPackaging.Relation.Wrap

/-!
This module contains the relationship fields of paragraphs: how they are read, and how they are written
without losing the comment lines inside of them.
-/

namespace DebianPackaging

def relationFieldNames : List Text := ["build-depends", "build-depends-indep", "build-depends-arch",
  "build-conflicts", "build-conflicts-indep", "build-conflicts-arch", "pre-depends", "depends",
  "recommends", "suggests", "enhances", "breaks", "conflicts", "provides", "replaces",
  "static-built-using", "built-using"]

structure CommentBlock where
  /-- How many value lines stand in front of the comments. -/
  position : Nat
  /-- The value line behind the comments without the blanks around it. -/
  anchor : Text
  lines : List Text
  deriving DecidableEq, Repr

namespace CommentBlock

def ofLines (position : Nat) (pending : List Text) : List Text → List CommentBlock
  | [] => []
  | l :: ls =>
    if ControlDocument.isComment l then ofLines position (pending ++ [l]) ls
    else
      let blocks := ofLines (position + 1) [] ls
      if pending.isEmpty then blocks else ⟨position, l.trim, pending⟩ :: blocks

/-- The line of a new value that a comment block goes in front of: the first one behind the first line
that has the text of its anchor, or the one at its old position. -/
def target (lines : List Text) (b : CommentBlock) : Nat :=
  match (lines.drop 1).findIdx? fun l => l.trim == b.anchor with
  | some i => i + 1
  | none => min b.position (lines.length - 1)

def insertAll (blocks : List CommentBlock) (lines : List Text) : List Text :=
  lines.zipIdx.flatMap fun (l, i) =>
    (blocks.filter fun b => b.target lines == i).flatMap (·.lines) ++ [l]

end CommentBlock

namespace ControlField

/-- The new text of a value with the comment lines of the old one. There is none if the old value has no
comment, or the new one has no place for it. -/
def withComments? (f : ControlField) (value : Text) : Option Text :=
  let old := f.rawValue.lines
  let blocks := CommentBlock.ofLines 0 [] old
  if blocks.isEmpty then none
  else
    let gap := ((old.find? fun l => !ControlDocument.isComment l).getD []).takeWhile isGap
    let indent : Text := if gap.isEmpty then " " else gap
    let raw := if value.head? = some '\n' then value else indent ++ value
    let lines := Text.lines (raw ++ ['\n'])
    if lines.length < 2 then none else some (CommentBlock.insertAll blocks lines).flatten

end ControlField

namespace Paragraph

def setKeepingComments (p : Paragraph) (name value : Text) : Except Error Paragraph :=
  match (p.find? name).bind (·.withComments? value) with
  | some raw => p.setRaw name raw
  | none => p.setValue name value

def relations (p : Paragraph) (name : Text) : Except Error RelationField :=
  RelationField.read ((p.get? name).getD [])

/-- Store relations in a field, and tell whether that changed it. A field without entries is removed. -/
def setRelations (p : Paragraph) (name : Text) (f : RelationField)
    : Except Error (Paragraph × Bool) :=
  let old := p.get? name
  if f.entries.isEmpty then
    match old with
    | none => .ok (p, false)
    | some _ => .ok (p.erase name, true)
  else if old = some f.text then .ok (p, false)
  else (p.setKeepingComments name f.text).map fun p => (p, true)

/-- Sort the relationship fields among those of the given names, and tell whether one changed. A field
that cannot be read ends this; the fields in front of it stay sorted. -/
def wrapAndSortNames (p : Paragraph) : List Text → Paragraph × Except Error Bool
  | [] => (p, .ok false)
  | name :: names =>
    if !relationFieldNames.contains name.lower then p.wrapAndSortNames names
    else
      let value := (p.get? name).getD []
      match RelationField.read value with
      | .error e => (p, .error e)
      | .ok f =>
        let new := f.wrapAndSort name
        if new = value then p.wrapAndSortNames names
        else
          match p.setKeepingComments name new with
          | .error e => (p, .error e)
          | .ok p =>
            let (p, result) := p.wrapAndSortNames names
            (p, result.map fun _ => true)

end Paragraph

namespace ControlDocument

def wrapAndSortParts : List ControlPart → List ControlPart × Except Error Bool
  | [] => ([], .ok false)
  | .paragraph p :: parts =>
    match p.wrapAndSortNames p.names with
    | (p, .error e) => (.paragraph p :: parts, .error e)
    | (p, .ok changed) =>
      let (parts, result) := wrapAndSortParts parts
      (.paragraph p :: parts, result.map (changed || ·))
  | part :: parts =>
    let (parts, result) := wrapAndSortParts parts
    (part :: parts, result)

def wrapAndSort (d : ControlDocument) : ControlDocument × Except Error Bool :=
  let (parts, result) := wrapAndSortParts d.parts
  ({ parts }, result)

end ControlDocument

end DebianPackaging
