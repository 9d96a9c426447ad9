import DebianPackaging.Text.Decimal

/-!
This module contains the releases of Debian and Ubuntu and the debhelper that each of them ships.
-/

namespace DebianPackaging.Release

def debhelperVersions : List (Text × Text) := [
  ("stretch", "10.2.5"),
  ("buster", "12.1.1"),
  ("bullseye", "13.3.4"),
  ("bookworm", "13.11.4"),
  ("trixie", "13.24.2"),
  ("forky", "13.28"),
  ("sid", "13.28"),
  ("focal", "12.10ubuntu1"),
  ("jammy", "13.6ubuntu1"),
  ("noble", "13.14.1ubuntu5")]

def suites : List (Text × Text) := [
  ("oldoldstable", "bullseye"),
  ("oldstable", "bookworm"),
  ("stable", "trixie"),
  ("testing", "forky"),
  ("unstable", "sid")]

/-- Turn the name of a suite, with or without a vendor in front of it, into that of its release. -/
def resolve (name : Text) : Text :=
  let name := ((Text.cut? '/' name).map (·.2)).getD name
  (suites.lookup name).getD name

def debhelperVersion? (name : Text) : Option Text := debhelperVersions.lookup (resolve name)

def debhelperMajor? (name : Text) : Option Nat :=
  (debhelperVersion? name).map fun v => (v.before '.').digitsValue

end DebianPackaging.Release
