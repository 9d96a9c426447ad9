import DebianPackaging.Makefile.Rule

/-!
This module contains makefiles: their reader, which only understands rules and keeps every other line
as it is, and the removal of rules. The text of a makefile that was read is what it was read from.
-/

namespace DebianPackaging

inductive MakeElement where
  | line (text : Text)
  | rule (rule : Rule)
  deriving DecidableEq, Repr

namespace MakeElement

def text : MakeElement → Text
  | line t => t
  | rule r => r.text

def lines : MakeElement → List Text
  | line t => [t]
  | rule r => r.lines

def isBlankLine : MakeElement → Bool
  | line t => t.all isBlank
  | rule _ => false

def rule? : MakeElement → Option Rule
  | line _ => none
  | rule r => some r

end MakeElement

structure Makefile where
  elements : List MakeElement
  deriving DecidableEq, Repr

namespace Makefile

def text (m : Makefile) : Text := (m.elements.map (·.text)).flatten

def rules (m : Makefile) : List Rule := m.elements.filterMap (·.rule?)

def rulesFor (m : Makefile) (target : Text) : List Rule :=
  m.rules.filter fun r => r.targets.contains target

def takeContinued (line : Text) : List Text → List Text × List Text
  | [] => ([], [])
  | l :: ls =>
    if MakeLine.isContinued line then
      let (more, rest) := takeContinued l ls
      (l :: more, rest)
    else ([], l :: ls)

theorem takeContinued_append (line : Text) (ls : List Text)
    : (takeContinued line ls).1 ++ (takeContinued line ls).2 = ls := by
  induction ls generalizing line with
  | nil => simp [takeContinued]
  | cons l ls ih =>
    by_cases h : MakeLine.isContinued line <;> simp [takeContinued, h, ih]

theorem length_takeContinued_le (line : Text) (ls : List Text)
    : (takeContinued line ls).2.length ≤ ls.length := by
  have := congrArg List.length (takeContinued_append line ls)
  simp at this
  omega

theorem length_takeContinued_lt {ls rest : List Text} {l : Text}
    (h : ls.dropWhile MakeLine.isFiller = l :: rest)
    : (takeContinued l rest).2.length < ls.length := by
  have h₁ := (List.dropWhile_suffix (l := ls) MakeLine.isFiller).length_le
  have h₂ := length_takeContinued_le l rest
  rw [h, List.length_cons] at h₁
  omega

/-- The body of a rule at the start of the lines, and the lines behind it. Blank and comment lines
belong to it if a recipe line follows them. -/
def takeBody (ls : List Text) : List Text × List Text :=
  match h : ls.dropWhile MakeLine.isFiller with
  | [] => ([], ls)
  | l :: rest =>
    if MakeLine.isRecipe l then
      have := length_takeContinued_lt h
      let (body, behind) := takeBody (takeContinued l rest).2
      (ls.takeWhile MakeLine.isFiller ++ l :: (takeContinued l rest).1 ++ body, behind)
    else ([], ls)
termination_by ls.length

theorem takeBody_append (ls : List Text) : (takeBody ls).1 ++ (takeBody ls).2 = ls := by
  fun_induction takeBody ls with
  | case1 => rfl
  | case2 ls l rest h hl hlt body behind heq ih =>
    rw [heq] at ih
    calc
      _ = ls.takeWhile MakeLine.isFiller ++
          l :: ((takeContinued l rest).1 ++ (body ++ behind)) := by simp
      _ = ls.takeWhile MakeLine.isFiller ++ ls.dropWhile MakeLine.isFiller := by
        rw [ih, takeContinued_append, h]
      _ = ls := List.takeWhile_append_dropWhile
  | case3 => rfl

theorem length_takeBody_le (ls : List Text) : (takeBody ls).2.length ≤ ls.length := by
  have := congrArg List.length (takeBody_append ls)
  simp at this
  omega

def readElements : List Text → List MakeElement
  | [] => []
  | l :: ls =>
    have h₁ := length_takeContinued_le l ls
    have h₂ := length_takeBody_le (takeContinued l ls).2
    if MakeLine.isHeader l then
      let body := takeBody (takeContinued l ls).2
      .rule ⟨l, (takeContinued l ls).1, body.1⟩ :: readElements body.2
    else
      (l :: (takeContinued l ls).1).map .line ++ readElements (takeContinued l ls).2
termination_by ls => ls.length
decreasing_by all_goals simp only [List.length_cons]; omega

def read (t : Text) : Makefile := { elements := readElements t.lines }

/-- What remains of the elements in front of a rule when the rule is removed: a blank line goes with
it if another blank line or the end of the file follows. -/
def closeGap (before after : List MakeElement) : List MakeElement :=
  match before.getLast? with
  | some e =>
    if e.isBlankLine && after.head?.all (·.isBlankLine) then before.dropLast else before
  | none => before

def cutRule? (p : Rule → Bool)
    : List MakeElement → Option (List MakeElement × Rule × List MakeElement)
  | [] => none
  | .line t :: es => (cutRule? p es).map fun (a, r, b) => (.line t :: a, r, b)
  | .rule r :: es =>
    if p r then some ([], r, es) else (cutRule? p es).map fun (a, q, b) => (.rule r :: a, q, b)

def cutRuleAt? : (i : Nat) → List MakeElement → Option (List MakeElement × Rule × List MakeElement)
  | _, [] => none
  | i, .line t :: es => (cutRuleAt? i es).map fun (a, r, b) => (.line t :: a, r, b)
  | 0, .rule r :: es => some ([], r, es)
  | i + 1, .rule r :: es => (cutRuleAt? i es).map fun (a, q, b) => (.rule r :: a, q, b)

def dropRule? (m : Makefile) (i : Nat) : Option Makefile :=
  (cutRuleAt? i m.elements).map fun (before, _, after) => { elements := closeGap before after ++ after }

def mapRecipesAt? (m : Makefile) (i : Nat) (f : Text → Text) : Option (Makefile × Bool) :=
  (cutRuleAt? i m.elements).map fun (before, r, after) =>
    ({ elements := before ++ .rule (r.mapRecipes f) :: after }, r.mapRecipes f != r)

def mapRecipes (m : Makefile) (f : Text → Text) : Makefile where
  elements := m.elements.map fun
    | .line t => .line t
    | .rule r => .rule (r.mapRecipes f)

end Makefile

end DebianPackaging
