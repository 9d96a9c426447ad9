import DebianPackaging.CommandLine.Argument

/-!
This module contains the commands of the program and how they are called.
-/

namespace DebianPackaging

inductive Command where
  | compatLevel
  | ensureDebhelper (version : Text)
  | sequences
  | ensureBuildDependency (relation : Text)
  | highestCompatLevel (release : Text)
  | showVcs (type : Text)
  | setVcs (type url : Text)
  | dropPointlessOverrides
  | addOns
  | addAddOn (name : Text)
  | dropAddOn (name : Text)
  deriving DecidableEq, Repr

namespace Command

def isReadOnly : Command → Bool
  | compatLevel | sequences | highestCompatLevel _ | showVcs _ | addOns => true
  | _ => false

inductive Form where
  | plain (command : Command)
  | unary (parameter : Text) (command : Text → Command)
  | binary (first second : Text) (command : Text → Text → Command)

namespace Form

def parameters : Form → List Text
  | plain _ => []
  | unary parameter _ => [parameter]
  | binary first second _ => [first, second]

def command? : Form → List Text → Option Command
  | plain command, [] => some command
  | unary _ command, [a] => some (command a)
  | binary _ _ command, [a, b] => some (command a b)
  | _, _ => none

end Form

inductive Group where
  | all
  | vcs
  | rules
  deriving DecidableEq, Repr

namespace Group

def forms : Group → List (Text × Form)
  | all => [
      ("compat-level", .plain .compatLevel),
      ("ensure-debhelper-version", .unary "VERSION" .ensureDebhelper),
      ("sequences", .plain .sequences),
      ("ensure-build-dep", .unary "RELATION" .ensureBuildDependency),
      ("max-compat-level", .unary "RELEASE" .highestCompatLevel)]
  | vcs => [("get", .unary "TYPE" .showVcs), ("set", .binary "TYPE" "URL" .setVcs)]
  | rules => [
      ("drop-pointless-overrides", .plain .dropPointlessOverrides), ("get-with", .plain .addOns),
      ("add-with", .unary "NAME" .addAddOn), ("drop-with", .unary "NAME" .dropAddOn)]

def groups : Group → List (Text × Group)
  | all => [("vcs", vcs), ("rules", rules)]
  | _ => []

end Group

inductive NoCommand where
  | misused
  | helpWanted
  | versionWanted
  deriving DecidableEq, Repr

/-- Why the options among the arguments of a command keep it from being called, if they do. -/
def hindrance? : List Token → Option NoCommand
  | [] => none
  | .help :: _ => some .helpWanted
  | .malformed :: _ => some .misused
  | _ :: ts => hindrance? ts

def readArguments (form : Form) (ts : List Token) : Except NoCommand Command :=
  match hindrance? ts, (Token.words? ts).bind form.command? with
  | some cause, _ => .error cause
  | none, some c => .ok c
  | none, none => .error .misused

def readCall (group : Group) : List Token → Except NoCommand Command
  | [] | .separator :: _ | .malformed :: _ => .error .misused
  | .help :: _ => .error .helpWanted
  | .version :: _ => .error .versionWanted
  | .word name :: ts =>
    match group.forms.lookup name, group.groups.lookup name with
    | some form, _ => readArguments form ts
    | none, some group => readCall group ts
    | none, none => .error .misused
  | _ :: ts => readCall group ts

def read (args : List Text) : Except NoCommand (Options × Command) := do
  let ts := Token.scan true args
  let c ← readCall .all ts
  if ts.contains .unknown then throw .misused
  return (Options.ofTokens ts, c)

def calls (start : Text) (group : Group) : List Text :=
  group.forms.map fun (name, form) => Text.join " " (start :: name :: form.parameters)

def usage (program : Text) : List Text :=
  let start : Text := program ++ " [-C DIRECTORY] [-d]"
  calls start .all ++
    (Group.groups .all).flatMap fun (name, group) => calls (start ++ " " ++ name) group

end Command

end DebianPackaging
