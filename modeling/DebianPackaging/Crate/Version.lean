import DebianPackaging.Error
import DebianPackaging.Text.Decimal

/-!
This module contains the versions of Rust crates, which are written `major.minor.patch-pre+build`.
-/

namespace DebianPackaging

structure CrateVersion where
  major : Nat
  minor : Nat
  patch : Nat
  pre : Option Text
  build : Option Text
  deriving DecidableEq, Repr

namespace CrateVersion

def isIdentifierChar (c : Char) : Bool := c.isAlphanum || c == '.' || c == '-'

def readNumber? (t : Text) : Option (Nat × Text) :=
  let digits := t.takeWhile isDecimal
  if digits.isEmpty then none else some (Text.digitsValue digits, t.dropWhile isDecimal)

def readIdentifiers? (mark : Char) (t : Text) : Option (Option Text × Text) :=
  match Text.after? [mark] t with
  | none => some (none, t)
  | some t =>
    let word := t.takeWhile isIdentifierChar
    if word.isEmpty then none else some (some word, t.dropWhile isIdentifierChar)

def read? (t : Text) : Option CrateVersion := do
  let (major, t) ← readNumber? t
  let (minor, t) ← readNumber? (← Text.after? "." t)
  let (patch, t) ← readNumber? (← Text.after? "." t)
  let (pre, t) ← readIdentifiers? '-' t
  let (build, t) ← readIdentifiers? '+' t
  if t.isEmpty then return { major, minor, patch, pre, build } else none

def read (t : Text) : Except Error CrateVersion :=
  match read? t.trim with
  | some v => .ok v
  | none => .error (.invalidCrateVersion t)

def pair (v : CrateVersion) : Text := Text.ofNat v.major ++ '.' :: Text.ofNat v.minor

def numbers (v : CrateVersion) : Text := v.pair ++ '.' :: Text.ofNat v.patch

def text (v : CrateVersion) : Text :=
  v.numbers ++ (v.pre.map ('-' :: ·)).getD [] ++ (v.build.map ('+' :: ·)).getD []

end CrateVersion

end DebianPackaging
