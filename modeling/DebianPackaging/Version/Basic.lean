import DebianPackaging.Text.Decimal

/-!
This module contains the versions of Debian packages: their reader and their order. A version is
written `[epoch:]base[-revision]`.
-/

namespace DebianPackaging

structure Version where
  text : Text
  epoch : Nat
  base : Text
  revision : Option Text
  deriving DecidableEq, Repr

namespace Version

def isVersionChar (c : Char) : Bool := c.isAlphanum || ['.', '+', ':', '~', '-'].contains c

/-- Cut the text at its last `-` into base version and revision. A revision has no colon, and
neither part is empty. -/
def splitRevision (t : Text) : Text × Option Text :=
  let revision := t.reverse.takeWhile (· != '-')
  match t.reverse.dropWhile (· != '-') with
  | '-' :: a :: base =>
    if revision.isEmpty || revision.contains ':' then (t, none)
    else ((a :: base).reverse, some revision.reverse)
  | _ => (t, none)

def readBody? (text : Text) (epoch : Nat) (body : Text) : Option Version :=
  if body.isEmpty || !body.all isVersionChar then none
  else
    let (base, revision) := splitRevision body
    some { text, epoch, base, revision }

/--
Read a version. A colon needs an epoch of digits in front of the first one, and one line feed at the
end of the text is passed over.
-/
def read? (text : Text) : Option Version :=
  let body := if text.getLast? = some '\n' then text.dropLast else text
  match Text.cut? ':' body with
  | none => readBody? text 0 body
  | some (epoch, rest) =>
    if !epoch.isEmpty && epoch.all isDecimal then readBody? text epoch.digitsValue rest else none

inductive Run where
  | number (value : Nat)
  | other (text : Text)
  deriving DecidableEq, Repr

def consRun (c : Char) : List (Bool × Text) → List (Bool × Text)
  | (digit, t) :: runs =>
    if digit = c.isDigit then (digit, c :: t) :: runs else (c.isDigit, [c]) :: (digit, t) :: runs
  | [] => [(c.isDigit, [c])]

def runs (t : Text) : List Run :=
  (t.foldr consRun []).map fun (digit, r) =>
    if digit then .number r.digitsValue else .other r

/-- Compare two lists entry by entry; the shorter one goes on with `pad`. -/
def comparePadded (cmp : α → α → Ordering) (pad : α) : List α → List α → Ordering
  | [], [] => .eq
  | a :: as, [] => (cmp a pad).then (comparePadded cmp pad as [])
  | [], b :: bs => (cmp pad b).then (comparePadded cmp pad [] bs)
  | a :: as, b :: bs => (cmp a b).then (comparePadded cmp pad as bs)

/-- The rank of a character in a run: `~` stands before the end of the run, letters stand before
everything else. -/
def rank (c : Char) : Int :=
  if c = '~' then -1 else if c.isAlpha then c.toNat else c.toNat + 256

/-- Compare two runs. A number stands before all other runs but those that start with `~`. -/
def Run.compare : Run → Run → Ordering
  | .number a, .number b => Ord.compare a b
  | .number _, .other b => if b.head? = some '~' then .gt else .lt
  | .other a, .number _ => if a.head? = some '~' then .lt else .gt
  | .other a, .other b => comparePadded Ord.compare 0 (a.map rank) (b.map rank)

def comparePart (a b : Text) : Ordering :=
  comparePadded Run.compare (.number 0) (runs a) (runs b)

/-- Compare two versions: by epoch, then base version, then revision. -/
def compare (a b : Version) : Ordering :=
  ((Ord.compare a.epoch b.epoch).then (comparePart a.base b.base)).then
    (comparePart (a.revision.getD "0") (b.revision.getD "0"))

def atLeast (a b : Version) : Bool := a.compare b != .lt

end Version

end DebianPackaging
