import DebianPackaging.Text.Case
import DebianPackaging.Toml.Real

/-!
This module contains the reader of TOML's numbers.
-/

namespace DebianPackaging.Toml

inductive Number where
  | integer (value : Int)
  | real (value : Real)
  deriving DecidableEq, Repr

namespace Number

def splitBase (t : Text) : Nat × Text :=
  match t with
  | '0' :: 'b' :: ds => (2, ds)
  | '0' :: 'o' :: ds => (8, ds)
  | '0' :: 'x' :: ds => (16, ds)
  | ds => (10, ds)

def isDigitOf (base : Nat) (c : Char) : Bool :=
  c.toNat < 128 && (Text.digitIn? base c).isSome

/-- Remove the underscores that stand between two digits, where `left` says that a digit stands in front
of the text. -/
def dropUnderscores (base : Nat) (left : Bool) : Text → Text
  | [] => []
  | '_' :: c :: t =>
    if left && isDigitOf base c then c :: dropUnderscores base true t
    else '_' :: dropUnderscores base false (c :: t)
  | c :: t => c :: dropUnderscores base (isDigitOf base c) t

/-- Whether a number may start like this: a zero is followed by no other digit, and no point comes
first behind a sign. -/
def startsWell (signed : Bool) (t : Text) : Bool :=
  match t with
  | '0' :: c :: _ => ['.', 'e'].contains c || (!signed && ['b', 'o', 'x'].contains c)
  | '.' :: _ :: _ => !signed
  | _ => true

def readExponent? : Text → Option Int
  | [] => some 0
  | 'e' :: t =>
    let (negative, digits) : Bool × Text :=
      match t with
      | '-' :: ds => (true, ds)
      | '+' :: ds => (false, ds)
      | ds => (false, ds)
    if !digits.isEmpty && digits.all isDecimal then
      let n : Int := digits.digitsValue
      some (if negative then -n else n)
    else none
  | _ => none

def readDecimal? (negative : Bool) (t : Text) : Option Real := do
  let whole := t.takeWhile isDecimal
  let rest := t.drop whole.length
  let (fraction, rest) : Text × Text :=
    match rest with
    | '.' :: r => (r.takeWhile isDecimal, r.dropWhile isDecimal)
    | r => ([], r)
  let exponent ← readExponent? rest
  if whole.isEmpty && fraction.isEmpty then none
  else
    some (Real.ofDecimal negative (Text.digitsValue (whole ++ fraction)) (exponent - fraction.length))

def readReal? (t : Text) : Option Real :=
  let (negative, body) : Bool × Text :=
    match t.trim with
    | '-' :: t => (true, t)
    | '+' :: t => (false, t)
    | t => (false, t)
  if body == "nan" then some .nan
  else if body == "inf" || body == "infinity" then some (.infinity negative)
  else readDecimal? negative body

def read? (t : Text) : Option Number :=
  let (sign, body) : Text × Text :=
    match t with
    | '+' :: t => ("+", t)
    | '-' :: t => ("-", t)
    | t => ([], t)
  if !startsWell (!sign.isEmpty) body then none
  else
    let base := (splitBase body).1
    let plain := (dropUnderscores base false body).lower
    if plain.contains '_' || plain.getLast? == some '.' then none
    else if base != 10 then
      (Text.readNatIn? base (Text.trimEnd (plain.drop 2))).map fun n => .integer n
    else if (Text.before 'e' plain).getLast? == some '.' then none
    else
      match Text.readInt? (sign ++ plain) with
      | some i => some (.integer i)
      | none => (readReal? (sign ++ plain)).map .real

def text : Number → Text
  | integer i => Text.ofInt i
  | real r => r.text

def isZero : Number → Bool
  | integer i => i == 0
  | real r => r.isZero

end Number

end DebianPackaging.Toml
