import DebianPackaging.Text.Case

/-!
This module contains the names that the packages of a crate have in Debian.
-/

namespace DebianPackaging.Crate

def packagePart (name : Text) : Text := name.lower.map fun c => if c = '_' then '-' else c

def libraryPackage (name suffix : Text) : Text := "librust-" ++ packagePart name ++ suffix ++ "-dev"

def sourcePackage (name suffix : Text) : Text := "rust-" ++ packagePart name ++ suffix

def versionOfPackage (version : Text) : Text := version.map fun c => if c = '~' then '-' else c

end DebianPackaging.Crate
