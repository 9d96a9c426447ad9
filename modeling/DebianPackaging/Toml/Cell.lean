import DebianPackaging.Text.Blank

/-!
This module contains the layout of TOML arrays. An array is a list of cells; a cell has an item, the
white space in front of it, the comma behind it and a comment, each of which may be missing. The items
of an array can be assigned, inserted and deleted while all other cells keep their layout.
-/

namespace DebianPackaging.Toml

inductive CellContent (α : Type) where
  | none
  /-- No item, though a comma or comment stands where one could be. -/
  | gap
  | item (value : α)
  deriving DecidableEq, Repr

structure Cell (α : Type) where
  indent : Option Text := Option.none
  content : CellContent α := .none
  comma : Option Text := Option.none
  comment : Option Text := Option.none
  deriving DecidableEq, Repr

namespace Cell

def item? (c : Cell α) : Option α :=
  match c.content with
  | .item a => some a
  | _ => none

def isBlank (c : Cell α) : Bool :=
  match c.content with
  | .none => c.comment.isNone
  | _ => false

def isGap (c : Cell α) : Bool :=
  match c.content with
  | .gap => true
  | _ => false

def isEmpty (c : Cell α) : Bool :=
  match c.content with
  | .none => c.indent.isNone && c.comma.isNone && c.comment.isNone
  | _ => false

def indentHas (ch : Char) (c : Cell α) : Bool := (c.indent.getD []).contains ch

def withPlace (c : Cell α) : Cell α :=
  match c.content with
  | .none => { c with content := .gap }
  | _ => c

inductive Token (α : Type) where
  | space (text : Text)
  | comment (text : Text)
  | item (value : α)

/-- Group tokens into cells, where `cell` is the cell that is being filled and `full` says that a
comment ended it. -/
def group (cell : Cell α) (full : Bool) : List (Token α) → List (Cell α)
  | [] => [cell]
  | .space t :: ts =>
    if !t.contains ',' || full then cell :: group { indent := some t } false ts
    else group { cell.withPlace with comma := some t } full ts
  | .comment t :: ts => group { cell.withPlace with comment := some t } true ts
  | .item a :: ts =>
    match cell.content with
    | .none => group { cell with content := .item a } full ts
    | _ => cell :: group { content := .item a } full ts

def ofTokens (ts : List (Token α)) : List (Cell α) := (group {} false ts).filter (!·.isEmpty)

def items (cs : List (Cell α)) : List α := cs.filterMap (·.item?)

def position? : (i : Nat) → List (Cell α) → Option Nat
  | _, [] => none
  | i, c :: cs =>
    if c.item?.isNone then (position? i cs).map (· + 1)
    else
      match i with
      | 0 => some 0
      | i + 1 => (position? i cs).map (· + 1)

def assign (i : Nat) (a : α) (cs : List (Cell α)) : List (Cell α) :=
  match position? i cs with
  | some k => cs.modify k fun c => { c with content := .item a }
  | none => cs

/-- Where an item is inserted, and how. -/
structure Insertion where
  position : Nat
  comma : Option Text
  indent : Text

/-- Where an item goes that is inserted at the position `i` among the items: into the cell of the item
that is there, or to the end, in front of white space that ends the array. -/
def insertion (i : Nat) (cs : List (Cell α)) : Insertion :=
  match position? i cs with
  | some k => ⟨k, some ",", " "⟩
  | none =>
    match cs.getLast? with
    | some c =>
      if c.isBlank then ⟨cs.length - 1, none, if c.indentHas '\n' then "\n    " else " "⟩
      else ⟨cs.length, none, " "⟩
    | none => ⟨0, none, " "⟩

/-- Insert an item at the position `i` among the items. The white space in front of it is that of the
next cell, or that of the cell in front of it, and commas separate it from both. -/
def insert (i : Nat) (a : α) (cs : List (Cell α)) : List (Cell α) :=
  let place := insertion i cs
  let multiline := place.indent.contains '\n'
  let before := cs.take place.position
  let behind := cs.drop place.position
  let indent := (behind.head?.filter (!·.isBlank)).bind (·.indent)
  let previous := before.getLast?
  let indent := indent.or (previous.bind (·.indent))
  let comma :=
    match previous with
    | some c => if !c.isGap && multiline then c.comma else place.comma
    | none => place.comma
  let indentHasComma := (indent.getD []).contains ','
  let before :=
    before.modify (before.length - 1) fun c =>
      if c.comma.isNone && !c.isGap && !indentHasComma then { c with comma := some "," } else c
  let comma := if indentHasComma then none else comma
  let indent :=
    if indent.isNone && (previous.isSome || multiline) then some place.indent else indent
  before ++ { indent, content := .item a, comma } :: behind

def dropIndentComma : List (Cell α) → List (Cell α)
  | [] => []
  | c :: cs =>
    if c.indentHas ',' then { c with indent := c.indent.map (·.erase ',') } :: cs
    else c :: dropIndentComma cs

/-- Put a comma into the white space in front of an item, at the start of its second line or of all of
it. -/
def addIndentComma (c : Cell α) : Cell α :=
  if c.indentHas ',' then c
  else
    let t := c.indent.getD []
    match Text.cut? '\n' t with
    | some (line, rest) => { c with indent := some (line ++ '\n' :: ',' :: rest) }
    | none => { c with indent := some (',' :: t) }

def modifyFirst (f : Cell α → Cell α) : List (Cell α) → List (Cell α)
  | [] => []
  | c :: cs => f c :: cs

def dropLastComma (cs : List (Cell α)) : List (Cell α) :=
  cs.modify (cs.length - 1) fun c => if c.isBlank then c else { c with comma := none }

/-- What remains of the cells behind one that is deleted: one comma goes with it, and the line break in
front of it stays. -/
def closeUp (deleted : Cell α) (first : Bool) (behind : List (Cell α)) : List (Cell α) :=
  let behind :=
    if first then modifyFirst (fun c => if c.indentHas '\n' then c else { c with indent := none }) behind
    else behind
  let behind :=
    match deleted.indentHas ',', (deleted.comma.getD []).contains ',' with
    | true, true => modifyFirst addIndentComma behind
    | false, false => dropIndentComma behind
    | _, _ => behind
  if deleted.indentHas '\n' then
    modifyFirst (fun c => if c.indentHas '\n' then c else { c with indent := deleted.indent }) behind
  else behind

def delete (i : Nat) (cs : List (Cell α)) : List (Cell α) :=
  match position? i cs with
  | none => cs
  | some k =>
    match cs[k]? with
    | none => cs
    | some c => dropLastComma (cs.take k ++ closeUp c (k == 0) (cs.drop (k + 1)))

def render (renderItem : α → Text) (c : Cell α) : Text :=
  let item := (c.item?.map renderItem).getD []
  c.indent.getD [] ++ item ++ c.comma.getD [] ++ c.comment.getD []

def ofItems (as : List α) : List (Cell α) :=
  as.foldl (fun cs a => insert cs.length a cs) []

end Cell

end DebianPackaging.Toml
