import DebianPackaging.Makefile.Basic

/-!
This module contains the phony targets of a makefile, the prerequisites of its `.PHONY` rules, and how
they are added and dropped.
-/

namespace DebianPackaging

def phonyTarget : Text := ".PHONY"

def Rule.isPhony (r : Rule) : Bool := r.targets.contains phonyTarget

namespace Makefile

def phonyTargets (m : Makefile) : List Text := (m.rulesFor phonyTarget).flatMap (·.prerequisites)

/-- Drop a phony target from the rules of a makefile, where `done` holds the elements in front of the
others, and tell whether a rule listed it. A rule that lists nothing else is removed. -/
def dropPhonyFrom (target : Text) (done : List MakeElement)
    : List MakeElement → List MakeElement × Bool
  | [] => (done, false)
  | .line t :: es => dropPhonyFrom target (done ++ [.line t]) es
  | .rule r :: es =>
    if r.isPhony && r.prerequisites.contains target then
      let done :=
        if r.prerequisites.all (· == target) then closeGap done es
        else done ++ [.rule (r.removeAllPrerequisites target)]
      ((dropPhonyFrom target done es).1, true)
    else dropPhonyFrom target (done ++ [.rule r]) es

def dropPhony (m : Makefile) (target : Text) : Makefile × Bool :=
  let (elements, changed) := dropPhonyFrom target [] m.elements
  ({ elements }, changed)

def appendPrerequisite (r : Rule) (target : Text) : Rule :=
  { r with first := r.first.dropNewline ++ " " ++ target ++ r.first.newline }

def terminateLines : List Text → List Text
  | [] => []
  | [l] => [if l.getLast? = some '\n' then l else l ++ ['\n']]
  | l :: ls => l :: terminateLines ls

def terminateRule (r : Rule) : Rule :=
  if r.body.isEmpty then
    match terminateLines r.headerLines with
    | [] => r
    | first :: continued => { r with first, continued }
  else { r with body := terminateLines r.body }

def terminate : List MakeElement → List MakeElement
  | [] => []
  | [.line t] => [.line (if t.getLast? = some '\n' then t else t ++ ['\n'])]
  | [.rule r] => [.rule (terminateRule r)]
  | e :: es => e :: terminate es

def phonyRule (target : Text) : Rule := ⟨phonyTarget ++ ": " ++ target ++ "\n", [], []⟩

/-- Make a target phony, and tell whether it was not. The first `.PHONY` rule takes it, or a new one at
the end of the makefile. -/
def addPhony (m : Makefile) (target : Text) : Makefile × Bool :=
  if m.phonyTargets.contains target then (m, false)
  else
    match cutRule? Rule.isPhony m.elements with
    | some (before, r, after) =>
      ({ elements := before ++ .rule (appendPrerequisite r target) :: after }, true)
    | none => ({ elements := terminate m.elements ++ [.rule (phonyRule target)] }, true)

end Makefile

end DebianPackaging
