import DebianPackaging.Text.Blank
import DebianPackaging.Text.Line

/-!
This module contains the rules of makefiles and the kinds of lines that they are made of. A rule has a
header of one line, which may be continued, and a body of recipe lines with blank and comment lines
between them.
-/

namespace DebianPackaging

namespace MakeLine

def isContinued (line : Text) : Bool := line.dropNewline.getLast? == some '\\'

def isRecipe (line : Text) : Bool := line.head? == some '\t'

def isComment (line : Text) : Bool := line.head? == some '#'

/-- Whether a line may stand between the lines of a recipe without ending it. -/
def isFiller (line : Text) : Bool := line.isBlankRun || isComment line

def directives : List Text := ["define", "else", "endef", "endif", "export", "ifdef", "ifeq", "ifndef",
  "ifneq", "include", "-include", "sinclude", "override", "unexport", "vpath"]

/-- Whether what follows the first colon of a line makes it an assignment. -/
def isAssignment : Text → Bool
  | '=' :: _ => true
  | ':' :: '=' :: _ => true
  | _ => false

def isHeader (line : Text) : Bool :=
  if isRecipe line || isFiller line then false
  else
    match Text.cut? ':' line with
    | none => false
    | some (targets, rest) =>
      !isAssignment rest && !targets.contains '=' &&
        match targets.words with
        | [] => false
        | word :: _ => !directives.contains word

end MakeLine

structure Rule where
  first : Text
  continued : List Text
  body : List Text
  deriving DecidableEq, Repr

structure RuleHeader where
  targets : Text
  doubleColon : Bool
  prerequisites : Text
  recipe : Option Text
  deriving DecidableEq, Repr

namespace Rule

def headerLines (r : Rule) : List Text := r.first :: r.continued

def lines (r : Rule) : List Text := r.headerLines ++ r.body

def text (r : Rule) : Text := r.lines.flatten

def joinContinued : Text → Text
  | [] => []
  | '\\' :: '\r' :: '\n' :: t => ' ' :: joinContinued t
  | '\\' :: '\n' :: t => ' ' :: joinContinued t
  | c :: t => c :: joinContinued t

/-- Split a header with its lines joined: targets in front of the first colon, prerequisites up to a
semicolon or comment, and the recipe behind the semicolon. -/
def splitHeader (header : Text) : RuleHeader :=
  match Text.cut? ':' header with
  | none => ⟨header, false, [], none⟩
  | some (targets, rest) =>
    let doubleColon := rest.head? == some ':'
    let rest := if doubleColon then rest.drop 1 else rest
    match Text.cut? ';' rest with
    | none => ⟨targets, doubleColon, Text.before '#' rest, none⟩
    | some (rest, recipe) => ⟨targets, doubleColon, Text.before '#' rest, some recipe⟩

def header (r : Rule) : RuleHeader :=
  splitHeader (Text.dropNewline (joinContinued r.headerLines.flatten))

def targets (r : Rule) : List Text := r.header.targets.words

/-- The prerequisites of a rule; the bar in front of the order-only ones is left out. -/
def prerequisites (r : Rule) : List Text := r.header.prerequisites.words.filter (· != "|")

/-- The recipe that a line of a body holds, without its tab. Comments hold none, and neither do blank
lines that start without a tab. -/
def recipeOfLine? (line : Text) : Option Text :=
  if !MakeLine.isRecipe line && MakeLine.isFiller line then none
  else
    let text := line.dropNewline
    let text := if MakeLine.isRecipe text then text.drop 1 else text
    if MakeLine.isComment (Text.trim text) then none else some text

def inlineRecipe (r : Rule) : List Text :=
  match r.header.recipe.map Text.trim with
  | some (c :: t) => [c :: t]
  | _ => []

def recipes (r : Rule) : List Text := r.inlineRecipe ++ r.body.filterMap recipeOfLine?

def mapRecipeLine (f : Text → Text) (line : Text) : Text :=
  if !MakeLine.isRecipe line || MakeLine.isComment line.trim then line
  else
    let body := line.drop 1
    '\t' :: f (Text.dropNewline body) ++ Text.newline body

def mapRecipes (f : Text → Text) (r : Rule) : Rule := { r with body := r.body.map (mapRecipeLine f) }

def endsPrerequisite : Text → Bool
  | [] => true
  | c :: _ => isBlank c || ['\\', ';', '#', '|'].contains c

/-- Remove the first word `name` that stands behind a colon or blank, with the blank and the gap
behind it. -/
def removeWord? (name : Text) : Text → Option Text
  | [] => none
  | c :: t =>
    let found : Option Text :=
      if c == ':' || isBlank c then
        ((Text.after? name (t.dropWhile isGap)).filter endsPrerequisite).map fun rest =>
          if c = ':' then ':' :: rest else rest
      else none
    found.or ((removeWord? name t).map (c :: ·))

def removeWordFromLines? (name : Text) : List Text → Option (List Text)
  | [] => none
  | l :: ls =>
    match removeWord? name l with
    | some l => some (l :: ls)
    | none => (removeWordFromLines? name ls).map (l :: ·)

/-- Remove a prerequisite from the header lines: from behind the first colon, or from a continuation
line. -/
def removePrerequisite? (name : Text) (r : Rule) : Option Rule :=
  let targets := r.first.takeWhile (· != ':')
  let rest := r.first.dropWhile (· != ':')
  match removeWord? name rest with
  | some rest => some { r with first := targets ++ rest }
  | none => (removeWordFromLines? name r.continued).map fun ls => { r with continued := ls }

def removeRounds (name : Text) : (rounds : Nat) → Rule → Rule
  | 0, r => r
  | n + 1, r =>
    if r.prerequisites.contains name then
      match r.removePrerequisite? name with
      | some r => removeRounds name n r
      | none => r
    else r

/-- Remove a prerequisite wherever it can be found. Each removal makes the header shorter, which bounds
their number. -/
def removeAllPrerequisites (name : Text) (r : Rule) : Rule :=
  removeRounds name r.headerLines.flatten.length r

end Rule

end DebianPackaging
