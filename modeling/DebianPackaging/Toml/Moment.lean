import DebianPackaging.Text.Decimal

/-!
This module contains the dates and times of TOML.
-/

namespace DebianPackaging.Toml

structure Date where
  year : Nat
  month : Nat
  day : Nat
  deriving DecidableEq, Repr

structure Clock where
  hour : Nat
  minute : Nat
  second : Nat
  microsecond : Nat
  deriving DecidableEq, Repr

inductive Moment where
  | date (date : Date)
  | clock (clock : Clock)
  /-- The offset from universal time is counted in minutes. -/
  | both (date : Date) (clock : Clock) (offset : Option Int)
  deriving DecidableEq, Repr

def readTwo? : Text → Option (Nat × Text)
  | a :: b :: t => if a.isDigit && b.isDigit then some (Text.digitsValue [a, b], t) else none
  | _ => none

def readTwoAfter? (c : Char) (t : Text) : Option (Nat × Text) := (Text.after? [c] t).bind readTwo?

namespace Date

def isLeap (year : Nat) : Bool := year % 4 == 0 && (year % 100 != 0 || year % 400 == 0)

def daysOf (year month : Nat) : Nat :=
  if month = 2 then (if isLeap year then 29 else 28)
  else if [4, 6, 9, 11].contains month then 30 else 31

def isValid (d : Date) : Bool :=
  1 ≤ d.year && d.year ≤ 9999 && 1 ≤ d.month && d.month ≤ 12 && 1 ≤ d.day &&
    d.day ≤ daysOf d.year d.month

def read? (t : Text) : Option (Date × Text) := do
  let digits := t.takeWhile Char.isDigit
  let (month, rest) ← readTwoAfter? '-' (t.drop digits.length)
  let (day, rest) ← readTwoAfter? '-' rest
  let date : Date := ⟨Text.digitsValue digits, month, day⟩
  if !digits.isEmpty && date.isValid then return (date, rest) else none

end Date

namespace Clock

def readFraction? (t : Text) : Option (Nat × Text) :=
  match t with
  | '.' :: r =>
    let digits := r.takeWhile Char.isDigit
    let micro := digits.take 6 ++ List.replicate (6 - digits.length) '0'
    if digits.isEmpty then none else some (Text.digitsValue micro, r.drop digits.length)
  | t => some (0, t)

def read? (t : Text) : Option (Clock × Text) := do
  let (hour, rest) ← readTwo? t
  let (minute, rest) ← readTwoAfter? ':' rest
  let (second, rest) ← readTwoAfter? ':' rest
  let (microsecond, rest) ← readFraction? rest
  if hour < 24 ∧ minute < 60 ∧ second < 60 then return (⟨hour, minute, second, microsecond⟩, rest)
  else none

end Clock

namespace Moment

def readOffset? (t : Text) : Option (Option Int) :=
  let signed (sign : Int) (t : Text) : Option (Option Int) := do
    let (hours, rest) ← readTwo? t
    let (minutes, rest) ← readTwoAfter? ':' rest
    if hours < 24 ∧ minutes < 60 ∧ rest = [] then return some (sign * (hours * 60 + minutes))
    else none
  match t with
  | [] => some none
  | ['Z'] => some (some 0)
  | ['z'] => some (some 0)
  | '+' :: t => signed 1 t
  | '-' :: t => signed (-1) t
  | _ => none

def read? (t : Text) : Option Moment :=
  match Date.read? t with
  | some (day, []) => some (.date day)
  | some (day, c :: rest) =>
    if c != 'T' && c != 't' && c != ' ' then none
    else do
      let (time, rest) ← Clock.read? rest
      return .both day time (← readOffset? rest)
  | none =>
    match Clock.read? t with
    | some (time, []) => some (.clock time)
    | _ => none

def pad (width n : Nat) : Text :=
  let digits := Text.ofNat n
  List.replicate (width - digits.length) '0' ++ digits

def dateText (d : Date) : Text := pad 4 d.year ++ '-' :: pad 2 d.month ++ '-' :: pad 2 d.day

def clockText (c : Clock) : Text :=
  pad 2 c.hour ++ ':' :: pad 2 c.minute ++ ':' :: pad 2 c.second ++
    (if c.microsecond = 0 then [] else '.' :: pad 6 c.microsecond)

def offsetText (minutes : Int) : Text :=
  (if minutes < 0 then '-' else '+') :: pad 2 (minutes.natAbs / 60) ++
    ':' :: pad 2 (minutes.natAbs % 60)

def text : Moment → Text
  | date d => dateText d
  | clock c => clockText c
  | both d c offset => dateText d ++ ' ' :: clockText c ++ (offset.map offsetText).getD []

end Moment

end DebianPackaging.Toml
