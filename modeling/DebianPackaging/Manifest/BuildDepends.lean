import DebianPackaging.Manifest.Source
import DebianPackaging.Relation.Order

/-!
This module contains the build dependencies of a manifest. They stand in an array of texts, each of which
can hold several entries with commas between them.
-/

namespace DebianPackaging.Manifest

def buildDependsKey : Text := "build_depends"

def readEntries (t : Text) : Except Error (List Entry) := do return (← RelationField.read t).entries

def entriesOf (ts : List Text) : Except Error (List Entry) := do return (← ts.mapM readEntries).flatten

def buildDepends (m : Manifest) : Except Error RelationField := do
  match ← m.sourceTexts? buildDependsKey with
  | none => return {}
  | some ts => return RelationField.ofEntries (← entriesOf ts)

def entryText (e : Entry) : Text := e.text.trim

structure ItemGroup where
  item : Text
  first : Text
  second : Text
  others : List Text

namespace ItemGroup

def entries (g : ItemGroup) : List Text := g.first :: g.second :: g.others

def ofItem? (item : Text) : Except Error (Option ItemGroup) := do
  match (← readEntries item).map entryText with
  | first :: second :: others => return some { item, first, second, others }
  | _ => return none

end ItemGroup

/-- Put entries together to the items that they were in before, wherever all entries of an old item
follow each other. -/
def regroup (groups : List ItemGroup) : List Text → List Text
  | [] => []
  | e :: es =>
    match groups.find? fun g => g.entries.isPrefixOf (e :: es) with
    | some g => g.item :: regroup groups (es.drop (g.others.length + 1))
    | none => e :: regroup groups es
termination_by es => es.length
decreasing_by all_goals simp only [List.length_drop, List.length_cons]; omega

def newItems (old : Option (List Text)) (f : RelationField) : Except Error (List Text) := do
  let entries := f.entries.map entryText
  match old with
  | none => return entries
  | some old =>
    let groups ← old.mapM ItemGroup.ofItem?
    return regroup (groups.filterMap id) entries

def setBuildDepends (m : Manifest) (f : RelationField) : Except Error Manifest := do
  m.setSourceTexts buildDependsKey (← newItems (← m.sourceTexts? buildDependsKey) f)

def ensureBuildDependency (m : Manifest) (e : Entry) : Except Error (Manifest × Bool) := do
  let (f, changed) := (← m.buildDepends).ensure e
  if changed then return (← m.setBuildDepends f, true) else return (m, false)

end DebianPackaging.Manifest
