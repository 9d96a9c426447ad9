import DebianPackaging.Text.Blank

/-!
This module contains the quoting of words for a shell command line.
-/

namespace DebianPackaging.ShellWord

def isSpecialQuoted (c : Char) : Bool := ['\n', '`', '$', '"', '\\'].contains c

def isSpecialBare (c : Char) : Bool :=
  isBlank c || "!\"$'()*+#;<>?@[]\\`|~".toList.contains c

def escape (special : Char → Bool) (t : Text) : Text :=
  t.flatMap fun c => if special c then ['\\', c] else [c]

/-- Write one word: between double quotes if it has a blank, with backslashes otherwise. -/
def write (word : Text) : Text :=
  if word.any isBlank then '"' :: escape isSpecialQuoted word ++ ['"']
  else escape isSpecialBare word

def writeAll (words : List Text) : Text := Text.join " " (words.map write)

end DebianPackaging.ShellWord
