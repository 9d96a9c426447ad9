import DebianPackaging.Text.Basic

/-!
This module contains the blank characters and what is done with runs of them: trimming a text and
splitting it into words.
-/

namespace DebianPackaging

/--
Whether a character separates words: the white space of Unicode and the four separators that stand
in front of the space in ASCII.
-/
def isBlank (c : Char) : Bool :=
  let n := c.toNat
  (0x9 ≤ n && n ≤ 0xd) || (0x1c ≤ n && n ≤ 0x20) || n == 0x85 || n == 0xa0 || n == 0x1680 ||
    (0x2000 ≤ n && n ≤ 0x200a) || n == 0x2028 || n == 0x2029 || n == 0x202f || n == 0x205f ||
    n == 0x3000

def isGap (c : Char) : Bool := c == ' ' || c == '\t'

namespace Text

/-- A text of blanks only. The empty text has no blank and does not count. -/
def isBlankRun (t : Text) : Bool := !t.isEmpty && t.all isBlank

def lead (t : Text) : Text := t.takeWhile isBlank

def trimStart (t : Text) : Text := t.dropWhile isBlank

def trail (t : Text) : Text := takeEndWhile isBlank t

def trimEnd (t : Text) : Text := dropEndWhile isBlank t

def trim (t : Text) : Text := trimEnd (trimStart t)

theorem lead_append_trimStart (t : Text) : lead t ++ trimStart t = t :=
  List.takeWhile_append_dropWhile

theorem trimEnd_append_trail (t : Text) : trimEnd t ++ trail t = t :=
  dropEndWhile_append_takeEndWhile isBlank t

theorem lead_append_trim_append_trail (t : Text)
    : lead t ++ (trim t ++ trail (trimStart t)) = t := by
  rw [trim, trimEnd_append_trail, lead_append_trimStart]

def words (t : Text) : List Text := (t.splitOnP isBlank).filter (!·.isEmpty)

end Text

end DebianPackaging
