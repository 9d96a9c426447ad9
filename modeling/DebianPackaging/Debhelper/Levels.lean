import DebianPackaging.Error
import DebianPackaging.Json.Reader
import DebianPackaging.Text.Encoding
import DebianPackaging.Version.Release

/-!
This module contains the compat levels that the installed debhelper supports, as its assistant prints them,
and the highest level that can be used for a release.
-/

namespace DebianPackaging

inductive AssistantRun where
  | notInstalled
  | failed (exitCode : Int)
  | printed (output : ByteArray)

structure SupportedLevels where
  highestStable : Int
  lowestNonDeprecated : Int
  lowestVirtual : Int
  highest : Int
  lowest : Int
  lowestNotScheduledForRemoval : Int
  deriving DecidableEq, Repr

namespace SupportedLevels

def integerAt (v : JsonValue) (key : Text) : Except Error Int :=
  match v.get? key with
  | some (.integer i) => .ok i
  | _ => .error (.compatLevels (.notAnInteger key))

def ofJson (v : JsonValue) : Except Error SupportedLevels :=
  match v with
  | .object _ => do
    return {
      highestStable := ← integerAt v "HIGHEST_STABLE_COMPAT_LEVEL"
      lowestNonDeprecated := ← integerAt v "LOWEST_NON_DEPRECATED_COMPAT_LEVEL"
      lowestVirtual := ← integerAt v "LOWEST_VIRTUAL_DEBHELPER_COMPAT_LEVEL"
      highest := ← integerAt v "MAX_COMPAT_LEVEL"
      lowest := ← integerAt v "MIN_COMPAT_LEVEL"
      lowestNotScheduledForRemoval := ← integerAt v "MIN_COMPAT_LEVEL_NOT_SCHEDULED_FOR_REMOVAL" }
  | _ => .error (.compatLevels .notAnObject)

def ofRun : AssistantRun → Except Error SupportedLevels
  | .notInstalled => .error (.compatLevels .notInstalled)
  | .failed exitCode => .error (.compatLevels (.failed exitCode))
  | .printed output =>
    match (Encoding.decode? output).bind JsonValue.read? with
    | none => .error (.compatLevels .notJson)
    | some v => ofJson v

/-- The levels that are known already, or else those that a run of the assistant tells; they are known
from then on. -/
def lookUp (known : Option SupportedLevels) (run : AssistantRun)
    : Option SupportedLevels × Except Error SupportedLevels :=
  match known with
  | some levels => (known, .ok levels)
  | none => ((ofRun run).toOption, ofRun run)

end SupportedLevels

namespace Release

/-- The highest compat level that can be used for a release. For an unknown release it is the lowest
supported one that is not deprecated. -/
def highestCompatLevel (known : Option SupportedLevels) (run : AssistantRun) (release : Text)
    : Option SupportedLevels × Except Error Int :=
  match debhelperMajor? release with
  | some n => (known, .ok n)
  | none =>
    let (known, levels) := SupportedLevels.lookUp known run
    (known, levels.map (·.lowestNonDeprecated))

end Release

end DebianPackaging
