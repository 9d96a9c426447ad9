import DebianPackaging.Makefile.Phony
import DebianPackaging.Makefile.DhCommand

/-!
This module contains what `debian/rules` has beyond other makefiles: recipe lines that run `dh`, and
override targets that run in place of a command of `dh`.
-/

namespace DebianPackaging

def overrideStart : Text := "override_"

def Rule.isPointlessOverride (r : Rule) : Bool :=
  match r.targets with
  | [target] =>
    match Text.after? overrideStart target with
    | none => false
    | some command =>
      r.prerequisites.isEmpty &&
        match (r.recipes.map Text.trim).filter (!·.isEmpty) with
        | [recipe] => recipe == command
        | _ => false
  | _ => false

namespace Makefile

def discardCut (before : List MakeElement) (r : Rule) (after : List MakeElement) : Makefile :=
  r.targets.foldl (fun m target => (m.dropPhony target).1)
    { elements := closeGap before after ++ after }

def discardOverrideAt? (m : Makefile) (i : Nat) : Option (Makefile × Bool) :=
  (cutRuleAt? i m.elements).map fun (before, r, after) =>
    if r.isPointlessOverride then (discardCut before r after, true) else (m, false)

def discardFirstOverride (m : Makefile) : Makefile :=
  match cutRule? Rule.isPointlessOverride m.elements with
  | some (before, r, after) => discardCut before r after
  | none => m

/-- Remove all pointless overrides, one after the other, and tell their number. -/
def discardOverrides (m : Makefile) : Makefile × Nat :=
  let pointless := m.rules.filter (·.isPointlessOverride)
  (pointless.foldl (fun m _ => m.discardFirstOverride) m, pointless.length)

def dhInvocations (m : Makefile) : List Text :=
  (m.rules.flatMap (·.recipes)).filter DhCommand.isInvocation

def updateDhInvocations (m : Makefile) (f : Text → Text) : Makefile × Bool :=
  let new := m.mapRecipes fun line => if DhCommand.isInvocation line then f line else line
  (new, new != m)

end Makefile

def cdbsInclude : Text := "include /usr/share/cdbs/"

def includesCdbs (rules : Text) : Bool :=
  rules.lines.any fun line =>
    Text.startsWith (if line.head? = some '-' then line.drop 1 else line) cdbsInclude

end DebianPackaging
