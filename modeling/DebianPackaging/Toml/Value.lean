import DebianPackaging.Toml.Cell
import DebianPackaging.Toml.Quoted
import DebianPackaging.Toml.Number
import DebianPackaging.Toml.Moment

/-!
This module contains the values of TOML. A value keeps its spelling, so that a document is written as it
was read.
-/

namespace DebianPackaging.Toml

structure Key where
  spelling : Text
  first : Text
  others : List Text
  deriving DecidableEq, Repr

def Key.path (k : Key) : List Text := k.first :: k.others

structure InlineEntry (α : Type) where
  lead : Text
  key : Key
  separator : Text
  value : α

inductive Value where
  | string (spelling value : Text)
  | number (spelling : Text) (value : Number)
  | boolean (value : Bool)
  | moment (spelling : Text) (value : Moment)
  | array (cells : List (Cell Value))
  | table (entries : List (InlineEntry Value)) (trail : Text)

namespace Value

mutual

def text : Value → Text
  | string spelling _ => spelling
  | number spelling _ => spelling
  | boolean b => if b then "true" else "false"
  | moment spelling _ => spelling
  | array cells => '[' :: cellsText cells ++ [']']
  | table entries trail => '\x7b' :: entriesText entries ++ trail ++ ['\x7d']

def cellsText : List (Cell Value) → Text
  | [] => []
  | ⟨indent, content, comma, comment⟩ :: cells =>
    indent.getD [] ++ contentText content ++ comma.getD [] ++ comment.getD [] ++ cellsText cells

def contentText : CellContent Value → Text
  | .item v => text v
  | _ => []

def entriesText : List (InlineEntry Value) → Text
  | [] => []
  | ⟨lead, key, separator, value⟩ :: entries =>
    let entry := lead ++ key.spelling ++ separator ++ text value
    match entries with
    | [] => entry
    | next :: entries => entry ++ ',' :: entriesText (next :: entries)

end

theorem cellsText_eq (cells : List (Cell Value))
    : cellsText cells = (cells.map (Cell.render text)).flatten := by
  induction cells with
  | nil => simp [cellsText]
  | cons c cells ih =>
    obtain ⟨indent, content, comma, comment⟩ := c
    cases content <;> simp [cellsText, contentText, Cell.render, Cell.item?, ih]

def ofText (t : Text) : Value := string (Quoted.write t) t

def ofTexts (ts : List Text) : Value := array (Cell.ofItems (ts.map ofText))

def string? : Value → Option Text
  | string _ value => some value
  | _ => none

def items? : Value → Option (List Value)
  | array cells => some (Cell.items cells)
  | _ => none

/-- Whether a value stands for yes: a number does if it is not zero, a text or a list if it is not
empty. -/
def isTrue : Value → Bool
  | string _ value => !value.isEmpty
  | number _ n => !n.isZero
  | boolean b => b
  | moment _ _ => true
  | array cells => !(Cell.items cells).isEmpty
  | table entries _ => !entries.isEmpty

def quoteWord (t : Text) : Text :=
  let quote := if t.contains '\'' && !t.contains '"' then '"' else '\''
  let writeChar (c : Char) : Text :=
    if c = '\\' ∨ c = quote then ['\\', c]
    else if c = '\n' then "\\n"
    else if c = '\r' then "\\r"
    else if c = '\t' then "\\t"
    else if isControl c then
      ['\\', 'x', Nat.digitChar (c.toNat / 16), Nat.digitChar (c.toNat % 16)]
    else [c]
  quote :: t.flatMap writeChar ++ [quote]

mutual

def shownInList : Value → Text
  | string _ value => quoteWord value
  | number _ n => n.text
  | boolean b => if b then "True" else "False"
  | moment _ m => m.text
  | array cells => '[' :: Text.join ", " (shownCells cells) ++ [']']
  | table entries _ => '\x7b' :: Text.join ", " (shownEntries entries) ++ ['\x7d']

def shownCells : List (Cell Value) → List Text
  | [] => []
  | ⟨_, content, _, _⟩ :: cells => shownContent content ++ shownCells cells

def shownContent : CellContent Value → List Text
  | .item v => [shownInList v]
  | _ => []

def shownEntries : List (InlineEntry Value) → List Text
  | [] => []
  | ⟨_, key, _, value⟩ :: entries =>
    (quoteWord (Text.join "." key.path) ++ ": " ++ shownInList value) :: shownEntries entries

end

def shown (v : Value) : Text :=
  match v.string? with
  | some t => t
  | none => shownInList v

end Value

end DebianPackaging.Toml
