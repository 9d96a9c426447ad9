import DebianPackaging.Text.Case

/-!
This module contains the versions that projects give to their releases, which are not yet
in the form of a Debian version.
-/

namespace DebianPackaging.ProjectVersion

def stages : List Text := ["rc", "beta", "alpha"]

def tildeBefore (stage : Text) : Text → Text
  | [] => []
  | c :: t => (if c = '-' && Text.startsWith t stage then '~' else c) :: tildeBefore stage t

def dottedStage? : Text → Option (Char × Text × Text)
  | '.' :: d :: t =>
    if !d.isDigit then none
    else
      [("a" : Text), "b", "rc"].findSome? fun stage =>
        (Text.after? stage t).map fun rest => (d, stage, rest.takeWhile Char.isDigit)
  | _ => none

/--
Turn the version of a project into one that sorts well as a Debian version: a single underscore is
dropped from a dotted version, underscores become dots in one without dots, and development versions
sort before the release.
-/
def debianize (version : Text) : Text :=
  let underscores := version.count '_'
  let dots := version.count '.'
  let version :=
    if underscores = 1 ∧ 1 < dots then version.filter (· != '_')
    else if 0 < underscores ∧ dots = 0 then version.map fun c => if c = '_' then '.' else c
    else version
  let version := stages.foldl (fun v stage => tildeBefore stage v) version
  match Text.cutLine? dottedStage? version with
  | some (front, digit, stage, number) => front ++ '.' :: digit :: '~' :: stage ++ number
  | none => version

def isSuffixMark (c : Char) : Bool := ['~', '+', '-'].contains c

def snapshotNames : List Text := ["ds", "dfsg", "git", "bzr", "svn", "hg"]

def snapshotSuffix? : Text → Option Unit
  | c :: t => if isSuffixMark c && snapshotNames.any (Text.startsWith t) then some () else none
  | [] => none

def anySuffix? : Text → Option Unit
  | c :: _ => if isSuffixMark c then some () else none
  | [] => none

def trailingVersion? : Text → Option Text
  | '~' :: t =>
    let number := t.takeWhile fun c => c.isDigit || c == '.'
    if !number.isEmpty && Text.isEnd (t.drop number.length) then some number else none
  | _ => none

/-- Whether a packaged version stands for a release of that version, disregarding case and the
suffixes for repacked sources and snapshots. -/
def matchesRelease (packaged release : Text) : Bool :=
  let packaged := packaged.lower
  let release := release.lower
  packaged == release ||
    (Text.cutLine? snapshotSuffix? packaged).any (·.1 == release) ||
    (Text.cutLine? anySuffix? packaged).any (·.1 == release) ||
    (Text.cutLine? trailingVersion? packaged).any (·.2 == release)

end DebianPackaging.ProjectVersion
