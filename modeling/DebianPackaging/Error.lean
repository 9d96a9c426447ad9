import DebianPackaging.Text.Basic

/-!
This module contains the causes for which an operation of the library fails, and the texts under
which the command line reports them.
-/

namespace DebianPackaging

inductive FileQuestion where
  | compare
  | commit
  deriving DecidableEq, Repr

inductive LookupFailure where
  | notInstalled
  | failed (exitCode : Int)
  | notJson
  | notAnObject
  | notAnInteger (key : Text)
  deriving DecidableEq, Repr

inductive Error where
  | notARelation (text : Text)
  | emptyAlternative (text : Text)
  | noAlternative
  | invalidVersion (text : Text)
  | invalidCrateVersion (text : Text)
  | unreadable (document : Text)
  | noSourceParagraph
  /-- A relationship field was set that a manifest has no place for. -/
  | noManifestField (field : Text)
  | notFromFile (question : FileQuestion)
  | debhelperInField (field : Text)
  | complexCompatRule
  | compatWithoutVersion
  | compatLevels (failure : LookupFailure)
  | noSuchIndex
  /-- A field was deleted or read back that the paragraph does not have. -/
  | noSuchField
  /-- The lines of a new field value cannot stand behind a field name. -/
  | invalidFieldLines
  | invalidField
  | noField
  | keyAlreadyPresent
  | tableRedefined
  | notATable
  /-- A key is set in a value of a manifest that holds no keys. -/
  | notAssignable
  | notATableItem
  | fileNotFound (path : Text)
  | isADirectory (path : Text)
  | notADirectory (path : Text)
  | invalidPath
  | notUtf8
  deriving DecidableEq, Repr

def assistantCommand : List Text := ["dh_assistant", "supported-compat-levels"]

namespace LookupFailure

def message : LookupFailure → Text
  | notInstalled =>
    "Cannot determine the supported compat levels: dh_assistant is not available"
  | failed exitCode =>
    "The command << " ++ Text.join " " assistantCommand ++ " >> failed with exit code " ++
      Text.ofInt exitCode
  | notJson => "dh_assistant supported-compat-levels did not return valid JSON"
  | notAnObject => "dh_assistant supported-compat-levels did not return a JSON object"
  | notAnInteger key =>
    "dh_assistant supported-compat-levels did not provide an integer for " ++ key

end LookupFailure

namespace Error

/-- The report of an error that the library expects and explains; all others are faults of the
caller or of the file system. -/
def message? : Error → Option Text
  | notARelation text => some ("Cannot parse \"" ++ text ++ "\" as a relation")
  | emptyAlternative text => some ("Empty alternative in \"" ++ text ++ "\"")
  | invalidVersion text => some ("Invalid version \"" ++ text ++ "\"")
  | invalidCrateVersion text => some ("Invalid crate version \"" ++ text ++ "\"")
  | unreadable document => some ("Could not parse " ++ document)
  | noSourceParagraph => some "The source paragraph is no longer present"
  | noManifestField field =>
    some ("debcargo.toml has no equivalent of the " ++ field ++ " field")
  | notFromFile .compare => some "Cannot compare a document that was not read from a file"
  | notFromFile .commit => some "Cannot commit a document that was not read from a file"
  | debhelperInField field => some ("debhelper in " ++ field)
  | complexCompatRule => some "Complex rule for debhelper-compat, aborting"
  | compatWithoutVersion => some "debhelper-compat without version, aborting"
  | compatLevels failure => some failure.message
  | _ => none

def description : Error → Text
  | noAlternative => "An entry must have at least one relation"
  | noSuchIndex => "There is nothing at this position"
  | noSuchField => "There is no such field"
  | invalidFieldLines => "The lines of a field value do not continue the field"
  | invalidField => "A field value cannot be read back"
  | noField => "A field name starts a comment"
  | keyAlreadyPresent => "A key is defined twice"
  | tableRedefined => "A table is defined twice"
  | notATable => "A value of a manifest is no table"
  | notAssignable => "A value of a manifest holds no keys"
  | notATableItem => "An array of a manifest holds tables only"
  | fileNotFound path => "No such file or directory: " ++ path
  | isADirectory path => "Is a directory: " ++ path
  | notADirectory path => "Not a directory: " ++ path
  | invalidPath => "A path contains a null character"
  | notUtf8 => "A file is not encoded in UTF-8"
  | e => e.message?.getD []

end Error

end DebianPackaging
