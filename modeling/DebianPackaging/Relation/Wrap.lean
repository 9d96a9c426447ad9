import DebianPackaging.Relation.Order

/-!
This module contains the layout of relationship fields: entries sorted by name, on one line if they
fit and one on each line if they do not.
-/

namespace DebianPackaging

def maxLineLength : Nat := 79

def entryBreak : Text := ",\n    "

namespace Entry

def evenText (e : Entry) : Text := Text.join " | " (e.alternatives.map (·.spelled.text))

/-- Leave out each entry whose text stands in front of it or in `seen`, disregarding the blanks around
it. -/
def distinct (seen : List Text) : List Entry → List Entry
  | [] => []
  | e :: es =>
    let key := e.text.trim
    if seen.contains key then distinct seen es else e :: distinct (key :: seen) es

end Entry

namespace RelationField

def sortedEntries (f : RelationField) : List Entry := (Entry.distinct [] f.entries).mergeSort Entry.le

def wrapAndSort (f : RelationField) (fieldName : Text) : Text :=
  let rendered := f.sortedEntries.map (·.evenText)
  let line := Text.join ", " rendered
  if fieldName.length + 2 + line.length ≤ maxLineLength then line else Text.join entryBreak rendered

end RelationField

end DebianPackaging
