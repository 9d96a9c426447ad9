import DebianPackaging.Text.Decimal

/-!
This module contains the floating point numbers of TOML: the double that is nearest to a decimal, and the
shortest decimal that a double is nearest to, which is how a number is shown.
-/

namespace DebianPackaging.Toml

/-- A floating point number. The magnitude of a finite one is `mantissa * 2 ^ exponent`. -/
inductive Real where
  | finite (negative : Bool) (mantissa : Nat) (exponent : Int)
  | infinity (negative : Bool)
  | nan
  deriving DecidableEq, Repr

namespace Real

def scale (num den base : Nat) (exponent : Int) : Nat × Nat :=
  if 0 ≤ exponent then (num * base.pow exponent.toNat, den) else (num, den * base.pow (-exponent).toNat)

def less (a b : Nat × Nat) : Bool := a.1 * b.2 < b.1 * a.2

/-- The integer nearest to a fraction; a tie goes to the even one. -/
def roundEven (num den : Nat) : Nat :=
  let q := num / den
  let r := 2 * (num % den)
  if r < den || (r == den && q % 2 == 0) then q else q + 1

def minMantissa : Nat := 0x10000000000000

def mantissaEnd : Nat := 2 * minMantissa

def minExponent : Int := -1074

def nearest (negative : Bool) (num den : Nat) : Real :=
  let estimate := max ((num.log2 : Int) - den.log2 - 53) minExponent
  let floor (exponent : Int) : Nat :=
    let (n, d) := scale num den 2 (-exponent)
    n / d
  let exponent := if floor estimate < mantissaEnd then estimate else estimate + 1
  let (n, d) := scale num den 2 (-exponent)
  let mantissa := roundEven n d
  if !less (scale mantissa 1 2 exponent) (scale 1 1 2 1024) then infinity negative
  else if mantissa = mantissaEnd then finite negative minMantissa (exponent + 1)
  else finite negative mantissa exponent

def ofDecimal (negative : Bool) (digits : Nat) (exponent : Int) : Real :=
  let length : Int := (Nat.toDigits 10 digits).length
  if digits = 0 || length + exponent < -400 then finite negative 0 0
  else if 400 < length + exponent then infinity negative
  else
    let (num, den) := scale digits 1 10 exponent
    nearest negative num den

def pointOf (x : Nat × Nat) : Int :=
  let estimate : Int := (Nat.toDigits 10 x.1).length - (Nat.toDigits 10 x.2).length
  if less x (scale 1 1 10 estimate) then estimate else estimate + 1

/-- The decimal of `count` digits, with its point at `point`, that is nearest to a double, if that double
is the one nearest to it. -/
def digitsOf? (mantissa : Nat) (exponent point : Int) (count : Nat) : Option Nat :=
  let unit := point - count
  let value := scale mantissa 1 2 exponent
  let low :=
    if mantissa = minMantissa && minExponent < exponent then scale (4 * mantissa - 1) 4 2 exponent
    else scale (2 * mantissa - 1) 2 2 exponent
  let high := scale (2 * mantissa + 1) 2 2 exponent
  let (n, d) := scale value.1 value.2 10 (-unit)
  let inside (digits : Nat) : Bool :=
    let x := scale digits 1 10 unit
    if mantissa % 2 == 0 then !less x low && !less high x else less low x && less x high
  let near := roundEven n d
  let far := if near = n / d then near + 1 else n / d
  [near, far].find? inside

/-- The shortest digits that a positive double is nearest to, with the position of their point. Nines that
were rounded up have one digit more in front of the point. -/
def shortest (mantissa : Nat) (exponent : Int) : Text × Int :=
  let point := pointOf (scale mantissa 1 2 exponent)
  let found := (List.range 17).findSome? fun n =>
    (digitsOf? mantissa exponent point (n + 1)).map fun digits => (Text.ofNat digits, n + 1)
  let (digits, count) := found.getD ([], 0)
  (Text.dropEndWhile (· == '0') digits, point + digits.length - count)

def layOut (digits : Text) (point : Int) : Text :=
  if -4 < point ∧ point ≤ 16 then
    if point ≤ 0 then "0." ++ List.replicate (-point).toNat '0' ++ digits
    else
      let n := point.toNat
      let whole := digits.take n ++ List.replicate (n - digits.length) '0'
      let rest := digits.drop n
      whole ++ '.' :: (if rest.isEmpty then "0" else rest)
  else
    let e := point - 1
    let power := Text.ofNat e.natAbs
    let power := if power.length < 2 then '0' :: power else power
    let mark : Text := if e < 0 then "e-" else "e+"
    match digits with
    | [d] => d :: mark ++ power
    | d :: ds => d :: '.' :: ds ++ mark ++ power
    | [] => []

def text : Real → Text
  | nan => "nan"
  | infinity negative => if negative then "-inf" else "inf"
  | finite negative mantissa exponent =>
    let body : Text :=
      if mantissa = 0 then "0.0"
      else
        let (digits, point) := shortest mantissa exponent
        layOut digits point
    if negative then '-' :: body else body

def isZero : Real → Bool
  | finite _ mantissa _ => mantissa == 0
  | _ => false

end Real

end DebianPackaging.Toml
