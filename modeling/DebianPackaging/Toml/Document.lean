import DebianPackaging.Toml.Value

/-!
This module contains TOML documents and the look-up of keys in them. A document is a list of items and a
list of sections, each with a header and items of its own; what is written nowhere is not there.
-/

namespace DebianPackaging.Toml

inductive Item where
  | blank (text : Text)
  | comment (text : Text)
  | binding (indent : Text) (key : Key) (separator : Text) (value : Value) (tail : Text)

namespace Item

def text : Item → Text
  | blank t => t
  | comment t => t
  | binding indent key separator value tail =>
    indent ++ key.spelling ++ separator ++ value.text ++ tail

def isBlank : Item → Bool
  | blank _ => true
  | _ => false

def binding? : Item → Option (List Text × Value)
  | binding _ key _ value _ => some (key.path, value)
  | _ => none

end Item

structure Section where
  indent : Text
  key : Key
  isElement : Bool
  tail : Text
  items : List Item

namespace Section

def text (s : Section) : Text :=
  let header : Text :=
    if s.isElement then "[[" ++ s.key.spelling ++ "]]" else "[" ++ s.key.spelling ++ "]"
  s.indent ++ header ++ s.tail ++ (s.items.map (·.text)).flatten

end Section

structure Document where
  items : List Item := []
  sections : List Section := []

inductive Fact where
  | value (value : Value)
  | table
  | tables

inductive Found where
  | nothing
  | value (value : Value)
  | table
  | tables

mutual

def Value.facts (path : List Text) : Value → List (List Text × Fact)
  | .table entries trail => (path, .value (.table entries trail)) :: entriesFacts path entries
  | v => [(path, .value v)]

def Value.entriesFacts (path : List Text) : List (InlineEntry Value) → List (List Text × Fact)
  | [] => []
  | ⟨_, key, _, value⟩ :: entries => Value.facts (path ++ key.path) value ++ entriesFacts path entries

end

namespace Document

def text (d : Document) : Text :=
  (d.items.map (·.text)).flatten ++ (d.sections.map (·.text)).flatten

def itemFacts (path : List Text) (items : List Item) : List (List Text × Fact) :=
  (items.filterMap (·.binding?)).flatMap fun (p, v) => v.facts (path ++ p)

/-- What a section says. What it says about the elements of an array of tables is not looked up. -/
def sectionFacts (elements : List (List Text)) (s : Section) : List (List Text × Fact) :=
  let path := s.key.path
  if s.isElement then [(path, .tables)]
  else if elements.any (·.isPrefixOf path) then []
  else (path, .table) :: itemFacts path s.items

def facts (d : Document) : List (List Text × Fact) :=
  let elements := (d.sections.filter (·.isElement)).map (·.key.path)
  itemFacts [] d.items ++ d.sections.flatMap (sectionFacts elements)

/-- Look up a path. A table is there if something is said about what is in it. -/
def lookUp (d : Document) (path : List Text) : Found :=
  let facts := d.facts
  let here := facts.findSome? fun (p, fact) =>
    if p == path then
      match fact with
      | .value v => some (Found.value v)
      | .tables => some Found.tables
      | .table => none
    else none
  here.getD (if facts.any fun (p, _) => path.isPrefixOf p then .table else .nothing)

def keysAt (d : Document) (path : List Text) : List Text :=
  (d.facts.filterMap fun (p, _) =>
    if path.isPrefixOf p then (p.drop path.length).head? else none).eraseDups

end Document

namespace Found

def string? : Found → Option Text
  | value v => v.string?
  | _ => none

def items? : Found → Option (List Value)
  | value v => v.items?
  | _ => none

end Found

end DebianPackaging.Toml
