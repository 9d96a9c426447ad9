import DebianPackaging.Text.Line
import DebianPackaging.Text.Decimal

/-!
This module contains the strings of TOML: basic strings, in which a backslash starts an escape, and
literal strings, in which it does not. Both stand on one line behind one quote, or on any number of lines
behind three. Reading what was written gives the text back.
-/

namespace DebianPackaging.Toml

def isControl (c : Char) : Bool := (c.toNat < 0x20 && c != '\t') || c.toNat == 0x7f

def isSpace (c : Char) : Bool := isGap c || isNewline c

structure Quoted where
  value : Text
  /-- Whether the string started with three quotes. -/
  isBlock : Bool
  deriving DecidableEq, Repr

namespace Quoted

def letters : List (Char × Char) := [('b', '\x08'), ('t', '\t'), ('n', '\n'), ('f', '\x0c'),
  ('r', '\r'), ('"', '"'), ('\\', '\\')]

def escapeChar (c : Char) : Text :=
  match letters.find? (·.2 == c) with
  | some (letter, _) => ['\\', letter]
  | none =>
    if isControl c then
      ['\\', 'u', '0', '0', Nat.digitChar (c.toNat / 16), Nat.digitChar (c.toNat % 16)]
    else [c]

def write (t : Text) : Text := '"' :: t.flatMap escapeChar ++ ['"']

def consFirst (c : Char) (x : Text × Text) : Text × Text := (c :: x.1, x.2)

def startsEscape (quote c : Char) : Bool := c == '\\' && quote == '"'

/-- Cut a text at the quote that ends a string on one line, where `escaped` says that the character in
front of it started an escape. -/
def cutLine? (quote : Char) (escaped : Bool) : Text → Option (Text × Text)
  | [] => none
  | c :: t =>
    if escaped then (cutLine? quote false t).map (consFirst c)
    else if c = quote then some ([], t)
    else if isControl c then none
    else (cutLine? quote (startsEscape quote c) t).map (consFirst c)

/-- Cut a text at the three quotes that end a string, where `run` quotes stand in front of it. Up to two
more quotes in front of the three belong to the string. -/
def cutBlock? (quote : Char) (run : Nat) (escaped : Bool) : Text → Option (Text × Text)
  | [] => if 3 ≤ run && run < 6 then some (List.replicate (run - 3) quote, []) else none
  | c :: t =>
    if escaped then (cutBlock? quote 0 false t).map (consFirst c)
    else if c = quote then cutBlock? quote (run + 1) false t
    else if 6 ≤ run then none
    else if 3 ≤ run then some (List.replicate (run - 3) quote, c :: t)
    else if isControl c && !isNewline c then none
    else
      (cutBlock? quote 0 (startsEscape quote c) t).map fun (a, b) =>
        (List.replicate run quote ++ c :: a, b)

def charOfCode? (code : Text) : Option Char := do
  let n ← Text.readIntIn? 16 code
  if 0 ≤ n ∧ n.toNat.isValidChar then some (Char.ofNat n.toNat) else none

/--
Turn the inside of a basic string into its text. In a block a backslash at the end of a line stands for
no text, and neither does the white space behind it: `gap` says that such white space was passed, and
whether a line ended in it.
-/
def unescape? (isBlock : Bool) (gap : Option Bool) : Text → Option Text
  | [] => if gap = some false then none else some []
  | c :: t =>
    match gap with
    | some ended =>
      if isSpace c then unescape? isBlock (some (ended || c == '\n')) t
      else if !ended then none
      else if c = '\\' then escape t
      else (unescape? isBlock none t).map (c :: ·)
    | none => if c = '\\' then escape t else (unescape? isBlock none t).map (c :: ·)
where
  escape : Text → Option Text
    | 'u' :: a :: b :: c :: d :: t => do
      let ch ← charOfCode? [a, b, c, d]
      let t ← unescape? isBlock none t
      return ch :: t
    | 'U' :: a :: b :: c :: d :: e :: f :: g :: h :: t => do
      let ch ← charOfCode? [a, b, c, d, e, f, g, h]
      let t ← unescape? isBlock none t
      return ch :: t
    | c :: t =>
      if isBlock && isSpace c then unescape? isBlock (some (c == '\n')) t
      else do
        let ch ← letters.lookup c
        let t ← unescape? isBlock none t
        return ch :: t
    | [] => none

def dropFirstNewline : Text → Text
  | '\n' :: t => t
  | '\r' :: '\n' :: t => t
  | t => t

def ofInside? (quote : Char) (isBlock : Bool) (cut : Text × Text) : Option (Quoted × Text) :=
  let value := if quote = '"' then unescape? isBlock none cut.1 else some cut.1
  value.map fun value => ({ value, isBlock }, cut.2)

def read? (quote : Char) (t : Text) : Option (Quoted × Text) :=
  match Text.after? [quote, quote] t with
  | some t => (cutBlock? quote 0 false (dropFirstNewline t)).bind (ofInside? quote true)
  | none => (cutLine? quote false t).bind (ofInside? quote false)

end Quoted

end DebianPackaging.Toml
