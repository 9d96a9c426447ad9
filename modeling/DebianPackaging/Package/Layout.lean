import DebianPackaging.Files.Tree

/-!
This module contains the layout of a package: where its files are below its directory.
-/

namespace DebianPackaging

namespace PackageLayout

def packaging (directory : Text) : Text := joinPath directory "debian"

def packagingFile (directory name : Text) : Text := joinPath (packaging directory) name

def controlFile (directory : Text) : Text := packagingFile directory "control"

def manifestFile (directory : Text) : Text := packagingFile directory "debcargo.toml"

def cargoFile (directory : Text) : Text := joinPath directory "Cargo.toml"

def rulesFile (directory : Text) : Text := packagingFile directory "rules"

def compatFile (directory : Text) : Text := packagingFile directory "compat"

/-- The paths that matter for the package in a directory, each behind those of the directories on the
way to it. -/
def paths (directory : Text) : List Text :=
  [directory, packaging directory, controlFile directory, manifestFile directory,
    cargoFile directory, rulesFile directory, compatFile directory]

end PackageLayout

end DebianPackaging
