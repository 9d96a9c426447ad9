import DebianPackaging.Text.Basic
import DebianPackaging.Text.CaseTable

/-!
This module contains the case maps of texts: the lower case of a text, its capitalised form and the
comparison of characters that disregards case.
-/

namespace DebianPackaging

def CaseTable.find? (runs : List (Nat × Nat × Nat × Int)) (n : Nat) : Option Char :=
  (runs.find? fun (first, last, step, _) => first ≤ n && n ≤ last && (n - first) % step == 0).map
    fun (_, _, _, offset) => Char.ofNat (Int.toNat (n + offset))

def CaseTable.member (ranges : List (Nat × Nat)) (n : Nat) : Bool :=
  ranges.any fun (first, last) => first ≤ n && n ≤ last

def lowerChar (c : Char) : Char :=
  if c.toNat < 128 then c.toLower else (CaseTable.find? CaseTable.lower c.toNat).getD c

def titleChar (c : Char) : Text :=
  if c.toNat < 128 then [c.toUpper]
  else
    match CaseTable.titleSpecial.lookup c.toNat with
    | some codes => codes.map Char.ofNat
    | none => [(CaseTable.find? CaseTable.title c.toNat).getD c]

namespace Text

def besideCased (t : Text) : Bool :=
  match t.dropWhile fun c => CaseTable.member CaseTable.ignorable c.toNat with
  | [] => false
  | c :: _ => CaseTable.member CaseTable.cased c.toNat

/--
Turn a text into lower case. A capital sigma that ends a word becomes a final sigma, and a capital I
with a dot becomes an i and a combining dot.
-/
def lower (t : Text) : Text := go [] t
where
  go (passed : Text) : Text → Text
    | [] => []
    | c :: rest =>
      let new : Text :=
        if c = 'Σ' then (if besideCased passed && !besideCased rest then ['ς'] else ['σ'])
        else if c = 'İ' then ['i', '\u0307']
        else [lowerChar c]
      new ++ go (c :: passed) rest

def capitalizeFirst : Text → Text
  | [] => []
  | c :: t => titleChar c ++ t

end Text

/-- The lower case of a character that stands in a text of no language. -/
def foldChar (c : Char) : Char := if c = 'İ' then 'i' else lowerChar c

def sameLetter (a b : Char) : Bool :=
  let x := foldChar a
  let y := foldChar b
  x == y || CaseTable.variants.any fun cls => cls.contains x.toNat && cls.contains y.toNat

namespace Text

def afterFolded? : (lit t : Text) → Option Text
  | [], t => some t
  | _ :: _, [] => none
  | a :: lit, b :: t => if sameLetter a b then afterFolded? lit t else none

end Text

end DebianPackaging
