import DebianPackaging.Text.Basic

/-!
This module contains the choice of the outputs that are coloured, which environment variables make.
-/

namespace DebianPackaging

abbrev Variables := List (Text × Text)

def Variables.get? (settings : Variables) (name : Text) : Option Text := settings.lookup name

inductive ColorMode where
  | auto
  | always
  | never
  deriving DecidableEq, Repr

namespace ColorMode

def words : List (Text × ColorMode) := [("auto", auto), ("always", always), ("never", never)]

def read? (t : Text) : Option ColorMode := words.lookup t

/-- The mode that is asked for: by the variable of this program, or else by that of the packaging tools,
or else by the one that turns colours off everywhere. -/
def requested (settings : Variables) : Text :=
  let usual : Text := if (settings.get? "NO_COLOR").isSome then "never" else "auto"
  (settings.get? "DEBIAN_ANALYZER_COLORS").getD ((settings.get? "DPKG_COLORS").getD usual)

def applies (mode : ColorMode) (terminal : Bool) : Bool :=
  match mode with
  | auto => terminal
  | always => true
  | never => false

end ColorMode

structure Colors where
  stdout : Bool
  stderr : Bool
  rejected : Option Text := none
  deriving DecidableEq, Repr

namespace Colors

/-- Choose the outputs that are coloured. What is no mode stands for the usual one. -/
def choose (settings : Variables) (stdoutTerminal stderrTerminal : Bool) : Colors :=
  let asked := ColorMode.requested settings
  let mode := ColorMode.read? asked
  { stdout := (mode.getD .auto).applies stdoutTerminal
    stderr := (mode.getD .auto).applies stderrTerminal
    rejected := if mode.isNone then some asked else none }

end Colors

end DebianPackaging
