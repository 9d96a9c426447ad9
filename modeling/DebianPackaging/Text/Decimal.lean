import DebianPackaging.Text.Blank

/-!
This module contains the decimal digits of all scripts and the reader of integers that takes them.
-/

namespace DebianPackaging

/-- The zeros of the decimal digit ranges; the digits one to nine of a script follow its zero. -/
def digitZeros : List Nat := [
  0x30, 0x660, 0x6f0, 0x7c0, 0x966, 0x9e6, 0xa66, 0xae6, 0xb66, 0xbe6, 0xc66, 0xce6, 0xd66, 0xde6,
  0xe50, 0xed0, 0xf20, 0x1040, 0x1090, 0x17e0, 0x1810, 0x1946, 0x19d0, 0x1a80, 0x1a90, 0x1b50,
  0x1bb0, 0x1c40, 0x1c50, 0xa620, 0xa8d0, 0xa900, 0xa9d0, 0xa9f0, 0xaa50, 0xabf0, 0xff10, 0x104a0,
  0x10d30, 0x11066, 0x110f0, 0x11136, 0x111d0, 0x112f0, 0x11450, 0x114d0, 0x11650, 0x116c0,
  0x11730, 0x118e0, 0x11950, 0x11c50, 0x11d50, 0x11da0, 0x16a60, 0x16ac0, 0x16b50, 0x1d7ce,
  0x1d7d8, 0x1d7e2, 0x1d7ec, 0x1d7f6, 0x1e140, 0x1e2f0, 0x1e950, 0x1fbf0]

def digitValue? (c : Char) : Option Nat :=
  (digitZeros.find? fun z => z ≤ c.toNat && c.toNat < z + 10).map (c.toNat - ·)

def isDecimal (c : Char) : Bool := (digitValue? c).isSome

namespace Text

def digitIn? (base : Nat) (c : Char) : Option Nat :=
  let value : Option Nat :=
    match digitValue? c with
    | some d => some d
    | none =>
      if 'a' ≤ c ∧ c ≤ 'z' then some (c.toNat - 'a'.toNat + 10)
      else if 'A' ≤ c ∧ c ≤ 'Z' then some (c.toNat - 'A'.toNat + 10)
      else none
  value.filter (· < base)

/-- Read digits of the given base that may be grouped by single underscores: `value` is what the
digits in front of `t` stand for. -/
def readDigits? (base value : Nat) : (t : Text) → Option Nat
  | [] => some value
  | '_' :: c :: t => (digitIn? base c).bind fun d => readDigits? base (value * base + d) t
  | c :: t => (digitIn? base c).bind fun d => readDigits? base (value * base + d) t

/-- A decimal number has at most this many digits. -/
def maxDigits : Nat := 4300

def readNatIn? (base : Nat) : Text → Option Nat
  | [] => none
  | c :: t =>
    if base == 10 && maxDigits < (c :: t).countP (· != '_') then none
    else (digitIn? base c).bind fun d => readDigits? base d t

def readIntIn? (base : Nat) (t : Text) : Option Int :=
  match t.trim with
  | '-' :: t => (readNatIn? base t).map fun n => -(n : Int)
  | '+' :: t => (readNatIn? base t).map fun n => (n : Int)
  | t => (readNatIn? base t).map fun n => (n : Int)

def readInt? (t : Text) : Option Int := readIntIn? 10 t

def digitsValue (t : Text) : Nat := t.foldl (fun n c => n * 10 + (digitValue? c).getD 0) 0

end Text

end DebianPackaging
