import DebianPackaging.Text.Basic

/-!
This module contains the decoding of bytes that are text in UTF-8, UTF-16 or UTF-32, where the encoding is
told by the first bytes: by a byte order mark, or by where zeros are in text that starts with ASCII.
Surrogates that stand alone are read as replacement characters.
-/

namespace DebianPackaging

inductive Encoding where
  | utf8
  | utf16 (bigEndian : Bool)
  | utf32 (bigEndian : Bool)
  deriving DecidableEq, Repr

namespace Encoding

/-- The byte order marks with their encodings. A mark may start with another one, which is a mark only
where the longer one is not. -/
def marks : List (List UInt8 × Encoding) := [
  ([0x00, 0x00, 0xfe, 0xff], .utf32 true), ([0xff, 0xfe, 0x00, 0x00], .utf32 false),
  ([0xfe, 0xff], .utf16 true), ([0xff, 0xfe], .utf16 false), ([0xef, 0xbb, 0xbf], .utf8)]

def guess : List UInt8 → Encoding
  | a :: b :: c :: d :: _ =>
    if a == 0 then (if b == 0 then .utf32 true else .utf16 true)
    else if b == 0 then (if c == 0 && d == 0 then .utf32 false else .utf16 false)
    else .utf8
  | [a, b] => if a == 0 then .utf16 true else if b == 0 then .utf16 false else .utf8
  | _ => .utf8

def detect (bytes : List UInt8) : Encoding × List UInt8 :=
  match marks.find? fun (mark, _) => mark.isPrefixOf bytes with
  | some (mark, e) => (e, bytes.drop mark.length)
  | none => (guess bytes, bytes)

def pairs? (bigEndian : Bool) : List UInt8 → Option (List Nat)
  | [] => some []
  | a :: b :: bytes => do
    let rest ← pairs? bigEndian bytes
    let (high, low) := if bigEndian then (a, b) else (b, a)
    return (high.toNat * 0x100 + low.toNat) :: rest
  | [_] => none

def quads? (bigEndian : Bool) (bytes : List UInt8) : Option (List Nat) := do
  go (← pairs? bigEndian bytes)
where
  go : List Nat → Option (List Nat)
    | [] => some []
    | a :: b :: units => do
      let rest ← go units
      let (high, low) := if bigEndian then (a, b) else (b, a)
      return (high * 0x10000 + low) :: rest
    | [_] => none

def isSurrogate (first : Nat) (n : Nat) : Bool := first ≤ n && n < first + 0x400

/-- The character of a code point; a surrogate is replaced. -/
def charOf? (n : Nat) : Option Char :=
  if n.isValidChar then some (Char.ofNat n) else if n < 0x10000 then some '\ufffd' else none

def joinUnits : List Nat → List Nat
  | high :: low :: units =>
    if isSurrogate 0xd800 high && isSurrogate 0xdc00 low then
      (0x10000 + (high - 0xd800) * 0x400 + (low - 0xdc00)) :: joinUnits units
    else high :: joinUnits (low :: units)
  | units => units

def replaceSurrogates : List UInt8 → List UInt8
  | 0xed :: a :: b :: bytes =>
    if 0xa0 ≤ a && a ≤ 0xbf && 0x80 ≤ b && b ≤ 0xbf then 0xef :: 0xbf :: 0xbd :: replaceSurrogates bytes
    else 0xed :: replaceSurrogates (a :: b :: bytes)
  | a :: bytes => a :: replaceSurrogates bytes
  | [] => []

def decode? (bytes : ByteArray) : Option Text :=
  match detect bytes.data.toList with
  | (.utf8, bytes) => (String.fromUTF8? ⟨(replaceSurrogates bytes).toArray⟩).map (·.toList)
  | (.utf16 bigEndian, bytes) => do (joinUnits (← pairs? bigEndian bytes)).mapM charOf?
  | (.utf32 bigEndian, bytes) => do (← quads? bigEndian bytes).mapM charOf?

end Encoding

end DebianPackaging
