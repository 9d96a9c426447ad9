import DebianPackaging.Control.Paragraph
import DebianPackaging.Error

/-!
This module contains control files such as `debian/control`: their reader, and the edits of a field of
one of their paragraphs.
-/

namespace DebianPackaging

inductive ControlPart where
  | blank (line : Text)
  | comment (lines : List Text)
  | paragraph (paragraph : Paragraph)
  deriving DecidableEq, Repr

namespace ControlPart

def text : ControlPart → Text
  | blank line => line
  | comment lines => lines.flatten
  | paragraph p => p.text

def paragraph? : ControlPart → Option Paragraph
  | paragraph p => some p
  | _ => none

/-- Put a field in front of the parts, into a paragraph that they start with or into a new one. -/
def consField (f : ControlField) : List ControlPart → List ControlPart
  | .paragraph p :: parts => .paragraph { fields := f :: p.fields } :: parts
  | parts => .paragraph { fields := [f] } :: parts

end ControlPart

structure ControlDocument where
  parts : List ControlPart
  deriving DecidableEq, Repr

namespace ControlDocument

def isComment (line : Text) : Bool := line.head? == some '#'

def isContinuation (line : Text) : Bool :=
  match line with
  | c :: _ => isGap c && !line.all isBlank
  | [] => false

def isNameChar (c : Char) : Bool := '!' ≤ c && c ≤ '\x7f' && c != ':'

def isNameStart (c : Char) : Bool := isNameChar c && c != '#' && c != '-' && c != '.'

def readFieldLine? (line : Text) : Option (Text × Text) :=
  match Text.cut? ':' line with
  | some (c :: name, rest) =>
    if isNameStart c && name.all isNameChar then some (c :: name, rest) else none
  | _ => none

/-- The lines that continue a value, together with the comment lines in front of each, and the lines
behind them. -/
def takeContinuation (ls : List Text) : List Text × List Text :=
  match h : ls.dropWhile isComment with
  | [] => ([], ls)
  | l :: rest =>
    if isContinuation l then
      have : rest.length < ls.length := by
        have := (List.dropWhile_suffix (l := ls) isComment).length_le
        rw [h, List.length_cons] at this
        omega
      let (more, behind) := takeContinuation rest
      (ls.takeWhile isComment ++ l :: more, behind)
    else ([], ls)
termination_by ls.length

theorem takeContinuation_append (ls : List Text)
    : (takeContinuation ls).1 ++ (takeContinuation ls).2 = ls := by
  fun_induction takeContinuation ls with
  | case1 => rfl
  | case2 ls l rest h hl hlt more behind heq ih =>
    rw [heq] at ih
    calc
      _ = ls.takeWhile isComment ++ l :: (more ++ behind) := by simp
      _ = ls.takeWhile isComment ++ ls.dropWhile isComment := by rw [ih, h]
      _ = ls := List.takeWhile_append_dropWhile
  | case3 => rfl

theorem length_takeContinuation_le (ls : List Text)
    : (takeContinuation ls).2.length ≤ ls.length := by
  have := congrArg List.length (takeContinuation_append ls)
  simp at this
  omega

/-- Read the parts of a control file from lines that end with line feeds, where `comments` holds the
comment lines in front of them. -/
def readParts? (comments : List Text) : List Text → Option (List ControlPart)
  | [] => some (if comments.isEmpty then [] else [.comment comments])
  | l :: ls =>
    if l.all isBlank then
      (readParts? [] ls).map fun parts =>
        (if comments.isEmpty then [] else [.comment comments]) ++ .blank l :: parts
    else if isComment l then readParts? (comments ++ [l]) ls
    else
      have := length_takeContinuation_le ls
      match readFieldLine? l with
      | none => none
      | some (name, first) =>
        (readParts? [] (takeContinuation ls).2).map
          (ControlPart.consField ⟨comments, name, first, (takeContinuation ls).1⟩)
termination_by ls => ls.length

def hasDistinctNames : List Text → Bool
  | [] => true
  | n :: ns => !ns.any (sameName n) && hasDistinctNames ns

def terminateLine (l : Text) : Text := if l.getLast? = some '\n' then l else l ++ ['\n']

/-- Read a control file from its lines. No field may occur twice in a paragraph. -/
def readLines? (ls : List Text) : Option ControlDocument := do
  let parts ← readParts? [] (ls.map terminateLine)
  if (parts.filterMap (·.paragraph?)).all fun p => hasDistinctNames p.names then return { parts }
  else none

def text (d : ControlDocument) : Text := (d.parts.map (·.text)).flatten

def paragraphs (d : ControlDocument) : List Paragraph := d.parts.filterMap (·.paragraph?)

def setParagraph (d : ControlDocument) (i : Nat) (p : Paragraph) : ControlDocument :=
  { parts := go i d.parts }
where
  go (i : Nat) : List ControlPart → List ControlPart
    | [] => []
    | .paragraph q :: parts =>
      match i with
      | 0 => .paragraph p :: parts
      | i + 1 => .paragraph q :: go i parts
    | part :: parts => part :: go i parts

/-- The paragraph of the source package: the first one, if it has a `Source` field. -/
def sourceParagraph? (d : ControlDocument) : Option Paragraph :=
  match d.paragraphs with
  | p :: _ => if p.has "Source" then some p else none
  | [] => none

def binaryParagraphs (d : ControlDocument) : List Paragraph :=
  d.paragraphs.filter fun p => p.has "Package"

end ControlDocument

namespace Paragraph

/-- Check the lines of a field as they are to be written: each ends with a line feed, the lines behind
the first one continue the value or are comments, and the last line is no comment. -/
def areFieldLines : List Text → Bool
  | [] => true
  | l :: ls =>
    (l :: ls).all (fun l => l.getLast? == some '\n') &&
      ls.all (fun l => (l.head?.any isGap) || ControlDocument.isComment l) &&
      !(ls.getLast?.any ControlDocument.isComment)

/-- Give a field a value, which is the text behind the colon as it is to be written. The field keeps
its place, its spelling and the comment lines in front of it. -/
def setRaw (p : Paragraph) (name raw : Text) : Except Error Paragraph :=
  let name := ((p.find? name).map (·.name)).getD name
  let lines := Text.lines (name ++ ':' :: raw)
  if !areFieldLines lines then .error .invalidFieldLines
  else
    match ControlDocument.readLines? lines with
    | none => .error .invalidField
    | some d =>
      match d.paragraphs with
      | [] => .error .noField
      | q :: _ =>
        match q.find? name with
        | none => .error .noSuchField
        | some f => .ok (p.put f)

/-- Lay out a value: a space goes in front of it, and the blanks around its first line go, unless that
line starts with a space or tab already. -/
def layOut (value : Text) : Text :=
  match Text.cut? '\n' value with
  | none => if value.trim.isEmpty then ['\n'] else ' ' :: value.trim ++ ['\n']
  | some (first, rest) =>
    let first := if first.isEmpty || first.head?.any isGap then first else ' ' :: Text.trim first
    ControlDocument.terminateLine (first ++ '\n' :: rest)

def set (p : Paragraph) (name value : Text) : Except Error Paragraph := p.setRaw name (layOut value)

def setValue (p : Paragraph) (name value : Text) : Except Error Paragraph :=
  if value.head? = some '\n' then p.setRaw name (value ++ ['\n']) else p.set name value

def delete (p : Paragraph) (name : Text) : Except Error Paragraph :=
  if p.has name then .ok (p.erase name) else .error .noSuchField

def setList (p : Paragraph) (name : Text) (values : List Text) : Except Error Paragraph :=
  if values.isEmpty then .ok (p.erase name)
  else
    let value := Text.join ", " values
    if p.get? name = some value then .ok p else p.set name value

end Paragraph

end DebianPackaging
