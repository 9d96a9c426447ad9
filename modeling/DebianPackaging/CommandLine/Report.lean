import DebianPackaging.CommandLine.Color

/-!
This module contains the lines in which the program reports what it did and what went wrong.
-/

namespace DebianPackaging

inductive Severity where
  | info
  | warning
  | error
  deriving DecidableEq, Repr

namespace Severity

def name : Severity → Text
  | info => "info"
  | warning => "warning"
  | error => "error"

def colorCode : Severity → Text
  | info => "32"
  | warning => "33"
  | error => "31"

end Severity

def styleCode (code : Text) : Text := "\x1b[" ++ code ++ "m"

structure Report where
  severity : Severity
  message : Text
  deriving DecidableEq, Repr

namespace Report

def line (program : Text) (colored : Bool) (r : Report) : Text :=
  let level := r.severity.name
  if colored then
    let bold := styleCode "1"
    let plain := styleCode "0"
    bold ++ program ++ plain ++ ": " ++ bold ++ styleCode r.severity.colorCode ++ level ++ plain ++
      ": " ++ r.message ++ plain ++ "\n"
  else program ++ ": " ++ level ++ ": " ++ r.message ++ "\n"

end Report

def baseName (path : Text) : Text := Text.takeEndWhile (· != '/') path

def directoryName (path : Text) : Text :=
  let head := Text.dropEndWhile (· != '/') path
  if head.all (· == '/') then head else Text.dropEndWhile (· == '/') head

/-- The name of the program that is started by a path. A program that is a directory of modules goes
by the name of the directory. -/
def programName (path : Text) : Text :=
  let base := baseName path
  let base := if Text.endsWith base ".py" then base.take (base.length - 3) else base
  let base := if base == "__main__" then baseName (directoryName path) else base
  if base == "debian_analyzer_cmd" then "debian-analyzer" else base

end DebianPackaging
