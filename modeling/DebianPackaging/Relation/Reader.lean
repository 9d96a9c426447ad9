import DebianPackaging.Relation.Basic
import DebianPackaging.Error

/-!
This module contains the reader of relations. Each part has a reader that turns a text into the part
at its start and the rest of the text; a part that is not there leaves the text to the next reader.
-/

namespace DebianPackaging.Relation

def isNameChar (c : Char) : Bool := c.isAlphanum || ['+', '.', '-'].contains c

def isArchqualChar (c : Char) : Bool := c.isAlphanum || c == '-'

def isConstraintChar (c : Char) : Bool := c != ')' && !isBlank c

/-- Read a package name: a plain name, or a variable `$\{…\}` that holds at least one character. -/
def readName? : Text → Option (Text × Text)
  | '$' :: '{' :: t =>
    match Text.cut? '}' t with
    | some (c :: inner, rest) => some ('$' :: '{' :: c :: inner ++ ['}'], rest)
    | _ => none
  | c :: t => if c.isAlphanum then some (c :: t.takeWhile isNameChar, t.dropWhile isNameChar) else none
  | [] => none

def readArchqual? : Text → Option (Text × Text)
  | ':' :: c :: t =>
    if c.isAlphanum then some (c :: t.takeWhile isArchqualChar, t.dropWhile isArchqualChar)
    else none
  | _ => none

/-- The comparison operators; an operator stands behind those that start with it. -/
def operators : List Text := [">>", ">=", ">", "<<", "<=", "<", "="]

def readOperator? (t : Text) : Option (Text × Text) :=
  operators.findSome? fun op => (Text.after? op t).map fun rest => (op, rest)

def readConstraintVersion? : Text → Option (Text × Text)
  | c :: t =>
    if c.isAlphanum || c == '$' then
      some (c :: t.takeWhile isConstraintChar, t.dropWhile isConstraintChar)
    else none
  | [] => none

def readConstraint? (t : Text) : Option (Constraint × Text) :=
  match Text.trimStart t with
  | '(' :: t => do
    let (op, t) ← readOperator? (Text.trimStart t)
    let (version, t) ← readConstraintVersion? (Text.trimStart t)
    match Text.trimStart t with
    | ')' :: t => some (⟨op, version⟩, t)
    | _ => none
  | _ => none

def readWords? (opening closing : Char) (t : Text) : Option (List Text × Text) :=
  match Text.trimStart t with
  | c :: t =>
    if c = opening then
      (Text.cut? closing t).map fun (inner, rest) => (Text.words inner, rest)
    else none
  | [] => none

theorem length_of_readWords? {opening closing : Char} {t rest : Text} {words : List Text}
    (h : readWords? opening closing t = some (words, rest)) : rest.length < t.length := by
  simp only [readWords?] at h
  split at h
  next c u hu =>
    split at h
    next =>
      simp only [Option.map_eq_some_iff] at h
      obtain ⟨⟨inner, tail⟩, hcut, heq⟩ := h
      simp only [Prod.mk.injEq] at heq
      have hlen : (Text.trimStart t).length ≤ t.length := (List.dropWhile_suffix _).length_le
      have hu' := Text.eq_append_of_cut? hcut
      rw [hu, hu', heq.2] at hlen
      simp at hlen
      omega
    next => simp at h
  next => simp at h

def readArchs? (t : Text) : Option (List Text × Text) := readWords? '[' ']' t

def readProfiles? (t : Text) : Option (List Text × Text) := readWords? '<' '>' t

def readAllProfiles (t : Text) : List (List Text) × Text :=
  match h : readProfiles? t with
  | none => ([], t)
  | some (group, rest) =>
    have := length_of_readWords? h
    let (groups, rest) := readAllProfiles rest
    (group :: groups, rest)
termination_by t.length

def readOptional (read? : Text → Option (α × Text)) (t : Text) : Option α × Text :=
  match read? t with
  | some (a, rest) => (some a, rest)
  | none => (none, t)

/-- Read a relation. One line feed may follow it. -/
def read? (text : Text) : Option Relation := do
  let (name, t) ← readName? text
  let (archqual, t) := readOptional readArchqual? t
  let (constraint, t) := readOptional readConstraint? t
  let (archs, t) := readOptional readArchs? t
  let (profiles, t) := readAllProfiles t
  if Text.isEnd t then
    some { name, archqual, constraint, archs := archs.getD [], profiles }
  else none

end Relation

namespace SpelledRelation

def read (text : Text) : Except Error SpelledRelation :=
  match Relation.read? text with
  | some relation => .ok { relation, spelling := some text }
  | none => .error (.notARelation text)

end SpelledRelation

end DebianPackaging
