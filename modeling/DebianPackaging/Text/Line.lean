import DebianPackaging.Text.Basic

/-!
This module contains the ways in which a text is cut into lines. A line keeps the characters that
end it, so the lines of a text put together are the text again.
-/

namespace DebianPackaging

def isLineEnd (c : Char) : Bool :=
  let n := c.toNat
  (0xa ≤ n && n ≤ 0xd) || (0x1c ≤ n && n ≤ 0x1e) || n == 0x85 || n == 0x2028 || n == 0x2029

def isNewline (c : Char) : Bool := c == '\n' || c == '\r'

namespace Text

def consLine (c : Char) : List Text → List Text
  | [] => [[c]]
  | l :: ls => (c :: l) :: ls

theorem flatten_consLine (c : Char) (ls : List Text) : (consLine c ls).flatten = c :: ls.flatten := by
  cases ls <;> simp [consLine]

/-- The lines of a text, cut behind every line end; a carriage return and the line feed behind it are
one line end. -/
def lines : Text → List Text
  | [] => []
  | '\r' :: '\n' :: t => ['\r', '\n'] :: lines t
  | c :: t => if isLineEnd c then [c] :: lines t else consLine c (lines t)

theorem flatten_lines (t : Text) : (lines t).flatten = t := by
  fun_induction lines t with
  | case1 => rfl
  | case2 t ih => simp [ih]
  | case3 c t _ h ih => simp [ih]
  | case4 c t _ h ih => simp [flatten_consLine, ih]

/-- The lines of a text, cut behind line feeds only. -/
def feedLines : Text → List Text
  | [] => []
  | c :: t => if c = '\n' then [c] :: feedLines t else consLine c (feedLines t)

theorem flatten_feedLines (t : Text) : (feedLines t).flatten = t := by
  induction t with
  | nil => rfl
  | cons c t ih =>
    by_cases h : c = '\n'
    . simp [feedLines, h, ih]
    . simp [feedLines, h, flatten_consLine, ih]

def chopLine (l : Text) : Text :=
  match l.reverse with
  | '\n' :: '\r' :: r => r.reverse
  | c :: r => if isLineEnd c then r.reverse else l
  | [] => []

def bareLines (t : Text) : List Text := (lines t).map chopLine

/-- A text as it is read from a file: each carriage return, with the line feed behind it if there is
one, becomes a line feed. -/
def unifyNewlines : Text → Text
  | [] => []
  | '\r' :: '\n' :: t => '\n' :: unifyNewlines t
  | c :: t => (if c = '\r' then '\n' else c) :: unifyNewlines t

def newline (l : Text) : Text := takeEndWhile isNewline l

def dropNewline (l : Text) : Text := dropEndWhile isNewline l

theorem dropNewline_append_newline (l : Text) : dropNewline l ++ newline l = l :=
  dropEndWhile_append_takeEndWhile isNewline l

end Text

end DebianPackaging
