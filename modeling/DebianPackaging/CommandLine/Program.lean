import DebianPackaging.CommandLine.Action
import DebianPackaging.CommandLine.Report

/-!
This module contains whole runs of the program: from a command line and files to an exit code, outputs and
files.
-/

namespace DebianPackaging

structure Surroundings where
  name : Text
  /-- The version of the program. One that was never installed has none. -/
  version : Text := "N/A"
  colors : Colors
  assistant : AssistantRun

inductive Outcome where
  | done
  | misused
  | failed
  | crashed (e : Error)
  /-- The command failed, and its error is passed on. -/
  | raised (e : Error)
  deriving DecidableEq, Repr

def Outcome.exitCode : Outcome → Nat
  | done => 0
  | _ => 1

structure ProgramRun where
  outcome : Outcome
  stdout : Text
  stderr : Text
  tree : FileTree
  levels : Option SupportedLevels

namespace Surroundings

def warnings (s : Surroundings) (messages : List Text) : Text :=
  (messages.map fun m => Report.line s.name s.colors.stderr ⟨.warning, m⟩).flatten

def errorLine (s : Surroundings) (message : Text) : Text :=
  Report.line s.name s.colors.stderr ⟨.error, message⟩

def infoLine (s : Surroundings) (message : Text) : Text :=
  Report.line s.name s.colors.stdout ⟨.info, message⟩

def colorWarnings (s : Surroundings) : List Text :=
  match s.colors.rejected with
  | none | some [] => []
  | some asked => [
      "Invalid color request for \"" ++ asked ++
        "\" in either DEBIAN_ANALYZER_COLORS or DPKG_COLORS. Resetting to \"auto\"."]

def debugWarning : Text :=
  "Re-raising original exception to show the full stack trace due to debug mode being active"

def crashWarnings : List Text := [
  "Unhandled exception (Re-run with --debug to see the raw stack trace)",
  "Please file a bug with the full output."]

def outputOf (s : Surroundings) (a : Answer) : Text :=
  (a.shown.map (· ++ ['\n'])).flatten ++ (a.report.map s.infoLine).getD []

def explain (s : Surroundings) (debug : Bool) : Failure → Outcome × Text
  | .inapplicable message => (.failed, s.errorLine message)
  | .error e =>
    if debug then (.raised e, s.warnings [debugWarning])
    else
      match e.message? with
      | some message => (.failed, s.errorLine message)
      | none => (.crashed e, s.warnings crashWarnings ++ s.errorLine e.description)

def misuse (s : Surroundings) : Text :=
  (((Command.usage s.name).map (· ++ ['\n'])).flatten) ++ s.errorLine "No command is called"

/-- Run the program. A command that only shows something sets up its reports anew, and warns of unknown
colours once more. -/
def run (s : Surroundings) (tree : FileTree) (levels : Option SupportedLevels)
    (args : List Text) : ProgramRun :=
  let warned := s.warnings s.colorWarnings
  match Command.read args with
  | .error .misused => { outcome := .misused, stdout := [], stderr := warned ++ s.misuse, tree, levels }
  | .error .helpWanted =>
    let usage := (Command.usage s.name).map (· ++ ['\n'])
    { outcome := .done, stdout := usage.flatten, stderr := warned, tree, levels }
  | .error .versionWanted =>
    { outcome := .done, stdout := s.version ++ ['\n'], stderr := warned, tree, levels }
  | .ok (options, command) =>
    let warned := if command.isReadOnly then warned ++ warned else warned
    let workplace := { directory := options.directory, assistant := s.assistant }
    match (command.perform workplace).run { tree, levels } with
    | .ok answer world =>
      { outcome := .done, stdout := s.outputOf answer, stderr := warned, tree := world.tree,
        levels := world.levels }
    | .error failure world =>
      let (outcome, report) := s.explain options.debug failure
      { outcome, stdout := [], stderr := warned ++ report, tree := world.tree, levels := world.levels }

end Surroundings

end DebianPackaging
