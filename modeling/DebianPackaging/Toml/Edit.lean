import DebianPackaging.Error
import DebianPackaging.Toml.Document

/-!
This module contains the edits of TOML documents: a key of a table is given a value in place of the old
one, and where there is none a line for the key is added behind the other keys of its table.
-/

namespace DebianPackaging.Toml

mutual

def Value.assign (path : List Text) (new : Value) : Value → Value
  | .table entries trail =>
    if path.isEmpty then new else .table (Value.assignEntries path new entries) trail
  | v => if path.isEmpty then new else v

def Value.assignEntries (path : List Text) (new : Value)
    : List (InlineEntry Value) → List (InlineEntry Value)
  | [] => []
  | ⟨lead, key, separator, value⟩ :: entries =>
    let value :=
      if key.path.isPrefixOf path then Value.assign (path.drop key.path.length) new value else value
    ⟨lead, key, separator, value⟩ :: Value.assignEntries path new entries

end

namespace Key

def ofWord (word : Text) : Key := ⟨word, word, []⟩

def dotted (table word : Text) : Key := ⟨table ++ '.' :: word, table, [word]⟩

end Key

def terminated (tail : Text) : Text := if tail.contains '\n' then tail else tail ++ ['\n']

namespace Item

def ofBinding (indent : Text) (key : Key) (value : Value) : Item := .binding indent key " = " value "\n"

def terminate : Item → Item
  | blank t => blank t
  | comment t => comment (terminated t)
  | binding indent key separator value tail => binding indent key separator value (terminated tail)

def assign (path base : List Text) (new : Value) : Item → Item
  | binding indent key separator value tail =>
    let full := base ++ key.path
    let value :=
      if full.isPrefixOf path then Value.assign (path.drop full.length) new value else value
    binding indent key separator value tail
  | item => item

def isWithin (path base : List Text) (i : Item) : Bool :=
  (i.binding?).any fun (p, _) => path.isPrefixOf (base ++ p)

/-- Put an item behind the last key or comment, in front of the blank lines at the end. -/
def append (new : Item) (items : List Item) : List Item :=
  let blanks := (items.reverse.takeWhile (·.isBlank)).reverse
  let others := (items.reverse.dropWhile (·.isBlank)).reverse
  others.modify (others.length - 1) terminate ++ new :: blanks

end Item

namespace Section

/-- The white space that the keys of a section have in front of them: that of its header. -/
def keyIndent (s : Section) : Text := (s.indent.dropWhile (· != ' ')).takeWhile (· == ' ')

def add (s : Section) (key : Text) (value : Value) : Section where
  indent := s.indent
  key := s.key
  isElement := s.isElement
  tail := if s.items.all (·.isBlank) then terminated s.tail else s.tail
  items := Item.append (Item.ofBinding s.keyIndent (Key.ofWord key) value) s.items

/-- Put an empty line in front of a section, unless there is one. -/
def setApart (s : Section) : Section :=
  if s.isElement || s.indent.contains '\n' then s else { s with indent := '\n' :: s.indent }

def isBelow (table : Text) (s : Section) : Bool :=
  match s.key.path with
  | name :: _ :: _ => name == table
  | _ => false

def isOf (table : Text) (s : Section) : Bool := s.key.path == [table] && !s.isElement

end Section

namespace Document

def assign (d : Document) (path : List Text) (new : Value) : Document where
  items := d.items.map (·.assign path [] new)
  sections := d.sections.map fun s =>
    if s.isElement then s else { s with items := s.items.map (·.assign path s.key.path new) }

def remove (d : Document) (path : List Text) : Document where
  items := d.items.filter fun i => !i.isWithin path []
  sections :=
    (d.sections.filter fun s => !path.isPrefixOf s.key.path).map fun s =>
      { s with items := s.items.filter fun i => !i.isWithin path s.key.path }

/-- Add a key to the section of its table. The sections below the table are set apart from the key. -/
def addToSection? (table key : Text) (value : Value) : List Section → Option (List Section)
  | [] => none
  | s :: ss =>
    if s.isOf table then
      let apart :=
        match ss with
        | next :: ss =>
          if next.isBelow table && s.items.all (!·.isBlank) then next.setApart :: ss else next :: ss
        | [] => []
      some (s.add key value :: apart)
    else (addToSection? table key value ss).map (s :: ·)

/-- Add a section for a table that has sections below it only, in front of the first of those. -/
def addAbove? (table key : Text) (value : Value) : List Section → Option (List Section)
  | [] => none
  | s :: ss =>
    if s.isBelow table then
      let head : Section := ⟨[], Key.ofWord table, false, s.tail, []⟩
      some (head.add key value :: s.setApart :: ss)
    else (addAbove? table key value ss).map (s :: ·)

/-- Add a key of an inline table, behind the white space at the end of the table. -/
def addInline? (table key : Text) (value : Value) : List Item → Option (List Item)
  | [] => none
  | .binding indent k separator (.table entries trail) tail :: items =>
    if k.path = [table] then
      let entry : InlineEntry Value := ⟨trail, Key.ofWord key, " = ", value⟩
      some (.binding indent k separator (.table (entries ++ [entry]) []) tail :: items)
    else
      (addInline? table key value items).map
        (.binding indent k separator (.table entries trail) tail :: ·)
  | item :: items => (addInline? table key value items).map (item :: ·)

/-- Add a key of a table that is defined by the dots of keys, behind the first of those. -/
def addDotted? (table key : Text) (value : Value) : List Item → Option (List Item)
  | [] => none
  | item :: items =>
    if item.isWithin [table] [] then
      some (item.terminate :: Item.ofBinding [] (Key.dotted table key) value :: items)
    else (addDotted? table key value items).map (item :: ·)

def endsBlank (d : Document) : Bool :=
  match d.sections.getLast? with
  | none => (d.items.getLast?).any (·.isBlank)
  | some s => s.key.path.length == 1 && !s.isElement && (s.items.getLast?).any (·.isBlank)

def addSection (d : Document) (table : Text) : Document :=
  let isEmpty := d.items.isEmpty && d.sections.isEmpty
  let indent : Text := if isEmpty || d.endsBlank then [] else "\n"
  { d with sections := d.sections ++ [⟨indent, Key.ofWord table, false, "\n", []⟩] }

def add (d : Document) (table key : Text) (value : Value) : Document :=
  match (addInline? table key value d.items).or (addDotted? table key value d.items) with
  | some items => { d with items }
  | none =>
    match (addToSection? table key value d.sections).or (addAbove? table key value d.sections) with
    | some sections => { d with sections }
    | none =>
      let d := d.addSection table
      { d with sections := (addToSection? table key value d.sections).getD d.sections }

def isLeaf (d : Document) (path : List Text) : Bool :=
  match d.lookUp path with
  | .value (.table _ _) => false
  | .value _ => true
  | .tables => true
  | _ => false

def set (d : Document) (table key : Text) (value : Value) : Except Error Document :=
  if d.isLeaf [table] then .error .notAssignable
  else
    match d.lookUp [table, key] with
    | .value _ => .ok (d.assign [table, key] value)
    | .nothing => .ok (d.add table key value)
    | _ => .ok ((d.remove [table, key]).add table key value)

def isOpenTo (d : Document) (base : List Text) : List Text → Bool
  | [] => true
  | [_] => !d.isLeaf base
  | key :: path => !d.isLeaf base && d.isOpenTo (base ++ [key]) path

/-- Look up a path key by key. What is no table has no keys that could be looked up. -/
def get (d : Document) (path : List Text) : Except Error Found :=
  if d.isOpenTo [] path then .ok (d.lookUp path) else .error .notATable

end Document

end DebianPackaging.Toml
