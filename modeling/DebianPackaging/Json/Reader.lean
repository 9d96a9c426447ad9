import DebianPackaging.Text.Decimal

/-!
This module contains the reader of JSON. Besides what the standard allows it takes the numbers `NaN`,
`Infinity` and `-Infinity`; of the entries of an object that have one key the last one counts.
-/

namespace DebianPackaging

/-- A JSON value. Numbers with a fraction or an exponent keep their text only. -/
inductive JsonValue where
  | null
  | boolean (value : Bool)
  | integer (value : Int)
  | real (text : Text)
  | string (value : Text)
  | array (items : List JsonValue)
  | object (entries : List (Text × JsonValue))

namespace JsonValue

/-- Look up a key of an object: the last entry of the key counts. -/
def get? (key : Text) : JsonValue → Option JsonValue
  | object entries => entries.reverse.lookup key
  | _ => none

def isSpace (c : Char) : Bool := isGap c || c == '\n' || c == '\r'

def hexValue? (c : Char) : Option Nat := if c.toNat < 128 then Text.digitIn? 16 c else none

def codeOf? (a b c d : Char) : Option Nat := do
  return (← hexValue? a) * 0x1000 + (← hexValue? b) * 0x100 + (← hexValue? c) * 0x10 + (← hexValue? d)

/-- Put a code behind a text. A code that is half of a character stands for a replacement character. -/
def consCode (code : Nat) (t : Text) : Text :=
  (if code.isValidChar then Char.ofNat code else '\ufffd') :: t

def letters : List (Char × Char) := [('"', '"'), ('\\', '\\'), ('/', '/'), ('b', '\x08'),
  ('f', '\x0c'), ('n', '\n'), ('r', '\r'), ('t', '\t')]

def readString? : Text → Option (Text × Text)
  | '"' :: t => some ([], t)
  | '\\' :: 'u' :: a :: b :: c :: d :: t => do
    let code ← codeOf? a b c d
    let (value, rest) ← readString? t
    return (consCode code value, rest)
  | '\\' :: c :: t => do
    let ch ← letters.lookup c
    let (value, rest) ← readString? t
    return (ch :: value, rest)
  | c :: t => do
    if c = '\\' ∨ c.toNat < 0x20 then none
    let (value, rest) ← readString? t
    return (c :: value, rest)
  | [] => none

def takeDigits (t : Text) : Text × Text := (t.takeWhile Char.isDigit, t.dropWhile Char.isDigit)

def takeFraction (t : Text) : Text × Text :=
  match t with
  | '.' :: r =>
    let (digits, rest) := takeDigits r
    if digits.isEmpty then ([], t) else ('.' :: digits, rest)
  | t => ([], t)

def takeExponent (t : Text) : Text × Text :=
  let signed (mark : Char) (r : Text) : Text × Text :=
    let sign := r.takeWhile fun c => c == '+' || c == '-'
    let (digits, rest) := takeDigits (r.drop sign.length)
    if digits.isEmpty || 1 < sign.length then ([], t) else (mark :: sign ++ digits, rest)
  match t with
  | 'e' :: r => signed 'e' r
  | 'E' :: r => signed 'E' r
  | t => ([], t)

def readNumber? (t : Text) : Option (JsonValue × Text) := do
  let sign : Text := if t.head? = some '-' then "-" else []
  let (digits, rest) := takeDigits (t.drop sign.length)
  let (whole, rest) : Text × Text :=
    match digits with
    | '0' :: more => ("0", more ++ rest)
    | digits => (digits, rest)
  if whole.isEmpty then none
  let (fraction, rest) := takeFraction rest
  let (exponent, rest) := takeExponent rest
  if fraction.isEmpty && exponent.isEmpty then
    return (integer (← Text.readInt? (sign ++ whole)), rest)
  return (real (sign ++ whole ++ fraction ++ exponent), rest)

def words : List (Text × JsonValue) := [("null", null), ("true", boolean true),
  ("false", boolean false), ("NaN", real "NaN"), ("Infinity", real "Infinity"),
  ("-Infinity", real "-Infinity")]

def readScalar? (t : Text) : Option (JsonValue × Text) :=
  match words.findSome? fun (word, v) => (Text.after? word t).map fun rest => (v, rest) with
  | some x => some x
  | none => readNumber? t

mutual

def readValue? : (n : Nat) → Text → Option (JsonValue × Text)
  | 0, _ => none
  | n + 1, t =>
    match t with
    | '"' :: r => (readString? r).map fun (value, rest) => (string value, rest)
    | '[' :: r =>
      match r.dropWhile isSpace with
      | ']' :: rest => some (array [], rest)
      | r => (readItems? n r).map fun (items, rest) => (array items, rest)
    | '\x7b' :: r =>
      match r.dropWhile isSpace with
      | '\x7d' :: rest => some (object [], rest)
      | r => (readEntries? n r).map fun (entries, rest) => (object entries, rest)
    | t => readScalar? t

def readItems? : (n : Nat) → Text → Option (List JsonValue × Text)
  | 0, _ => none
  | n + 1, t =>
    match readValue? n (t.dropWhile isSpace) with
    | none => none
    | some (v, rest) =>
      match rest.dropWhile isSpace with
      | ']' :: rest => some ([v], rest)
      | ',' :: rest => (readItems? n rest).map fun (items, rest) => (v :: items, rest)
      | _ => none

def readEntries? : (n : Nat) → Text → Option (List (Text × JsonValue) × Text)
  | 0, _ => none
  | n + 1, t =>
    match t.dropWhile isSpace with
    | '"' :: r =>
      match readString? r with
      | none => none
      | some (key, rest) =>
        match rest.dropWhile isSpace with
        | ':' :: rest =>
          match readValue? n (rest.dropWhile isSpace) with
          | none => none
          | some (v, rest) =>
            match rest.dropWhile isSpace with
            | '\x7d' :: rest => some ([(key, v)], rest)
            | ',' :: rest =>
              (readEntries? n rest).map fun (entries, rest) => ((key, v) :: entries, rest)
            | _ => none
        | _ => none
    | _ => none

end

def read? (t : Text) : Option JsonValue :=
  match readValue? (t.length + 1) (t.dropWhile isSpace) with
  | some (v, rest) => if rest.all isSpace then some v else none
  | none => none

end JsonValue

end DebianPackaging
