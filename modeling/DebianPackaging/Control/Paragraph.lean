import DebianPackaging.Text.Blank
import DebianPackaging.Text.Line
import DebianPackaging.Text.Case

/-!
This module contains the paragraphs of control files. A paragraph is a list of fields; a field has a
name, a value of one or several lines, and comment lines in front of it or inside of its value. All
characters are kept, so that a paragraph that was read is written back as it was.
-/

namespace DebianPackaging

/-- A field of a paragraph. Each of its lines ends with a line feed. -/
structure ControlField where
  comments : List Text
  name : Text
  first : Text
  /-- The lines that continue the value, and the comment lines in front of them. -/
  more : List Text
  deriving DecidableEq, Repr

structure Paragraph where
  fields : List ControlField
  deriving DecidableEq, Repr

def sameName (a b : Text) : Bool := a.lower == b.lower

namespace ControlField

def rawValue (f : ControlField) : Text := f.first ++ f.more.flatten

def text (f : ControlField) : Text := f.comments.flatten ++ f.name ++ ':' :: f.rawValue

def continuation (f : ControlField) : List Text := f.more.filter fun l => l.head? != some '#'

/-- The value of a field: the blanks around its first line, the comment lines and the last line feed
are left out. -/
def value (f : ControlField) : Text :=
  if f.continuation.isEmpty then f.first.trim
  else f.first.trim ++ '\n' :: f.continuation.flatten.dropLast

end ControlField

namespace Paragraph

def text (p : Paragraph) : Text := (p.fields.map (·.text)).flatten

def names (p : Paragraph) : List Text := p.fields.map (·.name)

def find? (p : Paragraph) (name : Text) : Option ControlField :=
  p.fields.find? fun f => sameName f.name name

def has (p : Paragraph) (name : Text) : Bool := (p.find? name).isSome

def get? (p : Paragraph) (name : Text) : Option Text := (p.find? name).map (·.value)

def erase (p : Paragraph) (name : Text) : Paragraph :=
  { fields := p.fields.filter fun f => !sameName f.name name }

/-- Put a field in place of the one of its name, whose comment lines it takes over, or at the end. -/
def put (p : Paragraph) (new : ControlField) : Paragraph :=
  if p.has new.name then
    { fields := p.fields.map fun f =>
        if sameName f.name new.name then { new with comments := f.comments } else f }
  else { fields := p.fields ++ [{ new with comments := [] }] }

end Paragraph

end DebianPackaging
