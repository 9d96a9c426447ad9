import DebianPackaging.Toml.Document

/-!
This module contains the reader of TOML documents. It goes on for as long as it can and tells what it has
read together with the fault that ended it.
-/

namespace DebianPackaging.Toml

inductive Fault where
  | unexpected (rest : Text)
  | malformed
  | duplicateKey
  deriving DecidableEq, Repr

def consumed (t rest : Text) : Text := t.take (t.length - rest.length)

def isBareKeyChar (c : Char) : Bool := c.isAlphanum || c == '-' || c == '_'

def isSeparatorChar (c : Char) : Bool := c == '=' || isGap c

def endsWord (c : Char) : Bool := isSpace c || ['#', ',', ']', '\x7d'].contains c

def isLineSpace (c : Char) : Bool := isGap c || c == '\r'

def readString (quote : Char) (t : Text) : Except Fault (Quoted × Text) :=
  match Quoted.read? quote t with
  | some x => .ok x
  | none => .error .malformed

/-- Read the parts of a key, at most `n`, and tell the names that they stand for, the first one apart. -/
def readKeyParts : (n : Nat) → Text → Except Fault ((Text × List Text) × Text)
  | 0, _ => .error .malformed
  | n + 1, t => do
    let (name, rest) ←
      match t.dropWhile isGap with
      | '"' :: r => quoted '"' r
      | '\'' :: r => quoted '\'' r
      | _ =>
        let word := t.takeWhile fun c => isBareKeyChar c || isGap c
        let name := Text.trim word
        if name.isEmpty || name.contains ' ' then throw .malformed
        else pure (name, t.drop word.length)
    match rest with
    | '.' :: rest => do
      let ((next, names), rest) ← readKeyParts n rest
      return ((name, next :: names), rest)
    | rest => return ((name, []), rest)
where
  quoted (quote : Char) (t : Text) : Except Fault (Text × Text) := do
    let (q, rest) ← readString quote t
    if q.isBlock then throw (.unexpected rest)
    return (q.value, rest.dropWhile isGap)

def readKey (t : Text) : Except Fault (Key × Text) := do
  let ((first, others), rest) ← readKeyParts (t.length + 1) t
  return (⟨consumed t rest, first, others⟩, rest)

def readSeparator (t : Text) : Except Fault (Text × Text) :=
  let separator := t.takeWhile isSeparatorChar
  let rest := t.dropWhile isSeparatorChar
  match Text.cut? '=' separator with
  | none => .error (.unexpected rest)
  | some (_, behind) =>
    if behind.contains '=' then .error (.unexpected (behind.dropWhile (· != '=') ++ rest))
    else .ok (separator, rest)

def readNumber (t : Text) : Except Fault (Value × Text) :=
  let word := t.takeWhile (!endsWord ·)
  match Number.read? word with
  | some n => .ok (.number word n, t.drop word.length)
  | none => .error .malformed

def readMoment (t : Text) : Except Fault (Value × Text) :=
  let word := t.takeWhile (!endsWord ·)
  match Moment.read? word with
  | none => readNumber t
  | some (.date d) =>
    let more := (t.drop word.length).takeWhile fun c => !endsWord c || c == ' '
    match Text.trimEnd more with
    | [] => .ok (.moment word (.date d), t.drop word.length)
    | time =>
      let word := word ++ time
      match Moment.read? word with
      | some m => .ok (.moment word m, t.drop word.length)
      | none => .error .malformed
  | some m => .ok (.moment word m, t.drop word.length)

def readWord (t : Text) : Except Fault (Value × Text) :=
  let word := t.takeWhile (!endsWord ·)
  match t with
  | 't' :: _ =>
    match Text.after? "true" t with
    | some rest => .ok (.boolean true, rest)
    | none => .error (.unexpected t)
  | 'f' :: _ =>
    match Text.after? "false" t with
    | some rest => .ok (.boolean false, rest)
    | none => .error (.unexpected t)
  | c :: _ =>
    if ['+', '-'].contains c || word == "inf" || word == "nan" then readNumber t
    else if c.isDigit then readMoment t
    else .error (.unexpected t)
  | [] => .error (.unexpected t)

def readComment (t : Text) : Except Fault (Text × Text) :=
  let comment := t.takeWhile (!isNewline ·)
  if comment.any isControl then .error .malformed else .ok (comment, t.drop comment.length)

def readTail (t : Text) : Except Fault (Text × Text) := do
  let rest := t.dropWhile isLineSpace
  match rest with
  | [] => return (t, [])
  | '\n' :: rest => return (consumed t rest, rest)
  | '#' :: _ =>
    let (_, rest) ← readComment rest
    let rest :=
      match rest with
      | '\r' :: '\n' :: rest => rest
      | '\r' :: rest => rest
      | '\n' :: rest => rest
      | rest => rest
    return (consumed t rest, rest)
  | rest => throw (.unexpected rest)

def addComma : List (Cell.Token Value) → List (Cell.Token Value)
  | .space s :: tokens => .space (s ++ [',']) :: tokens
  | tokens => .space [','] :: tokens

/-- Whether two paths cannot both have a value. -/
def related (p q : List Text) : Bool := p.isPrefixOf q || q.isPrefixOf p

mutual

def readValue : (n : Nat) → Text → Except Fault (Value × Text)
  | 0, _ => .error .malformed
  | n + 1, t =>
    match t with
    | '"' :: r => do
      let (q, rest) ← readString '"' r
      return (.string (consumed t rest) q.value, rest)
    | '\'' :: r => do
      let (q, rest) ← readString '\'' r
      return (.string (consumed t rest) q.value, rest)
    | '[' :: r => do
      let (tokens, rest) ← readTokens n false [] r
      return (.array (Cell.ofTokens tokens.reverse), rest)
    | '\x7b' :: r => do
      let ((entries, trail), rest) ← readEntries n [] [] r
      return (.table entries trail, rest)
    | t => readWord t

/-- Read the tokens of an array up to its end, where `tokens` stand in front of them in reverse order, and
`full` says that a comma has to come before the next value. -/
def readTokens : (n : Nat) → (full : Bool) → List (Cell.Token Value) → Text →
    Except Fault (List (Cell.Token Value) × Text)
  | 0, _, _, _ => .error .malformed
  | n + 1, full, tokens, t =>
    let space := t.takeWhile isSpace
    let rest := t.dropWhile isSpace
    if space.any isNewline then readTokens n full (.space space :: tokens) rest
    else if rest.head? = some '#' then
      match readComment rest with
      | .error e => .error e
      | .ok (comment, rest) => readTokens n full (.comment (space ++ comment) :: tokens) rest
    else if !space.isEmpty then readTokens n full (.space space :: tokens) rest
    else
      match if full then .error (.unexpected t) else readValue n t with
      | .ok (v, rest) => readTokens n true (.item v :: tokens) rest
      | .error (.unexpected rest) =>
        match rest with
        | ']' :: rest => .ok (tokens, rest)
        | ',' :: c :: rest' =>
          if full then readTokens n false (addComma tokens) (c :: rest')
          else .error (.unexpected rest)
        | _ => .error (.unexpected rest)
      | .error e => .error e

/-- Read the entries of an inline table up to its end, where the paths of the entries in front of them are
`seen`, and the white space behind those is `gap`. -/
def readEntries : (n : Nat) → (seen : List (List Text)) → (gap : Text) → Text →
    Except Fault ((List (InlineEntry Value) × Text) × Text)
  | 0, _, _, _ => .error .malformed
  | n + 1, seen, gap, t =>
    let lead := gap ++ t.takeWhile isGap
    let rest := t.dropWhile isGap
    match rest with
    | [] => .error .malformed
    | ',' :: _ => .error (.unexpected rest)
    | '\x7d' :: behind => if seen.isEmpty then .ok (([], lead), behind) else .error (.unexpected rest)
    | rest => do
      let (key, rest) ← readKey rest
      let (separator, rest) ← readSeparator rest
      let (value, rest) ← readValue n rest
      if seen.any (related key.path) then throw .duplicateKey
      let entry : InlineEntry Value := ⟨lead, key, separator, value⟩
      match rest.dropWhile isGap with
      | '\x7d' :: behind => return (([entry], rest.takeWhile isGap), behind)
      | ',' :: c :: behind =>
        let ((entries, trail), rest) ←
          readEntries n (key.path :: seen) (rest.takeWhile isGap) (c :: behind)
        return ((entry :: entries, trail), rest)
      | rest => throw (.unexpected rest)

end

def readBinding (t : Text) : Except Fault (Item × Text) := do
  let rest := t.dropWhile isGap
  let (key, rest) ← readKey rest
  let (separator, rest) ← readSeparator rest
  let (value, rest) ← readValue (rest.length + 1) rest
  let (tail, rest) ← readTail rest
  return (.binding (t.takeWhile isGap) key separator value tail, rest)

def readItem (t : Text) : Except Fault (Item × Text) :=
  match t.dropWhile isLineSpace with
  | [] => .ok (.blank t, [])
  | '\n' :: rest => .ok (.blank (consumed t rest), rest)
  | '#' :: _ => (readTail t).map fun (comment, rest) => (.comment comment, rest)
  | _ => readBinding t

def startsSection (t : Text) : Bool := (t.dropWhile isLineSpace).head? == some '['

def readItems : (n : Nat) → Text → List Item × Except Fault Text
  | 0, _ => ([], .error .malformed)
  | n + 1, t =>
    if t.isEmpty || startsSection t then ([], .ok t)
    else
      match readItem t with
      | .error e => ([], .error e)
      | .ok (item, rest) =>
        let (items, result) := readItems n rest
        (item :: items, result)

/-- Read the header of a section, which ends with one bracket, or with one and another character if it
starts with two. -/
def readHeader (t : Text) : Except Fault (Section × Text) := do
  let indent := t.takeWhile isLineSpace
  let inside := (t.dropWhile isLineSpace).drop 1
  let isElement := inside.head? == some '['
  let (key, rest) ← readKey (if isElement then inside.drop 1 else inside)
  match rest with
  | ']' :: rest =>
    let (tail, rest) ← readTail (if isElement then rest.drop 1 else rest)
    return (⟨indent, key, isElement, tail, []⟩, rest)
  | _ => throw .malformed

def readSections : (n : Nat) → Text → List Section × Option Fault
  | 0, _ => ([], some .malformed)
  | n + 1, t =>
    if t.isEmpty then ([], none)
    else
      match readHeader t with
      | .error e => ([], some e)
      | .ok (s, rest) =>
        match readItems (rest.length + 1) rest with
        | (items, .error e) => ([{ s with items }], some e)
        | (items, .ok rest) =>
          let (sections, fault) := readSections n rest
          ({ s with items } :: sections, fault)

def readDocument (t : Text) : Document × Option Fault :=
  match readItems (t.length + 1) t with
  | (items, .error e) => ({ items }, some e)
  | (items, .ok rest) =>
    let (sections, fault) := readSections (rest.length + 1) rest
    ({ items, sections }, fault)

end DebianPackaging.Toml
