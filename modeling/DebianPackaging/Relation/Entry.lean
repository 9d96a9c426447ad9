import DebianPackaging.Relation.Reader

/-!
This module contains the entries of relationship fields: groups of alternative relations, written
with `|` between them. An entry keeps the blanks around each alternative.
-/

namespace DebianPackaging

structure Alternative where
  lead : Text
  spelled : SpelledRelation
  trail : Text
  deriving DecidableEq, Repr

namespace Alternative

def name (a : Alternative) : Text := a.spelled.relation.name

def text (a : Alternative) : Text := a.lead ++ a.spelled.text ++ a.trail

end Alternative

structure Entry where
  first : Alternative
  others : List Alternative
  deriving DecidableEq, Repr

namespace Entry

def alternatives (e : Entry) : List Alternative := e.first :: e.others

def relations (e : Entry) : List Relation := e.alternatives.map (·.spelled.relation)

def names (e : Entry) : List Text := e.alternatives.map (·.name)

def text (e : Entry) : Text := Text.join "|" (e.alternatives.map (·.text))

/-- Whether two entries mean the same, however they are written. -/
def same (a b : Entry) : Bool := a.relations == b.relations

def ofAlternatives? : List Alternative → Option Entry
  | [] => none
  | first :: others => some { first, others }

def spread (lead : Text) : List SpelledRelation → List Alternative
  | [] => []
  | [r] => [⟨lead, r, []⟩]
  | r :: rs => ⟨lead, r, " "⟩ :: spread " " rs

def ofRelations (rs : List SpelledRelation) : Except Error Entry :=
  match ofAlternatives? (spread [] rs) with
  | some e => .ok e
  | none => .error .noAlternative

def readAlternative (text part : Text) : Except Error Alternative :=
  match part.trim with
  | [] => .error (.emptyAlternative text)
  | content => do
    let spelled ← SpelledRelation.read content
    return { lead := part.lead, spelled, trail := part.trimStart.trail }

def read (text : Text) : Except Error Entry := do
  match ← (text.splitOn '|').mapM (readAlternative text) with
  | [] => .error (.emptyAlternative text)
  | first :: others => return { first, others }

end Entry

end DebianPackaging
