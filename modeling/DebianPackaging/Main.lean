import DebianPackaging.CommandLine.Program

/-!
This module contains the program as it is started: it reads the files of a package, runs a command on them
and writes the files that the command changed.
-/

namespace DebianPackaging

def directoryCode : UInt32 := 21

def loadNode? (path : Text) : IO (Option Node) := do
  try
    return some (.file (← IO.FS.readBinFile (String.ofList path)))
  catch e =>
    match e with
    | .noFileOrDirectory .. => return none
    | .inappropriateType _ code _ => return if code = directoryCode then some .directory else none
    | e => throw e

def loadTree (directory : Text) : IO FileTree := do
  let current := (← IO.currentDir).toString.toList
  let start := FileTree.ofWorkingDirectory (({} : FileTree).names current)
  (PackageLayout.paths directory).foldlM
    (fun tree path => do return ((← loadNode? path).map (tree.add path)).getD tree) start

def loadVariables : IO Variables := do
  let names := ["DEBIAN_ANALYZER_COLORS", "DPKG_COLORS", "NO_COLOR"]
  let settings ← names.mapM fun name => do
    return (← IO.getEnv name).map fun value => (name.toList, value.toList)
  return settings.filterMap id

/-- What the program finds around it. The assistant is not run: its levels count as not known. -/
def loadSurroundings : IO Surroundings := do
  let settings ← loadVariables
  let colors := Colors.choose settings (← (← IO.getStdout).isTty) (← (← IO.getStderr).isTty)
  return {
    name := programName (← IO.appPath).toString.toList
    colors
    assistant := .notInstalled }

def runOnDisk (args : List Text) : IO UInt32 := do
  let options : Options :=
    match Command.read args with
    | .ok (options, _) => options
    | .error _ => {}
  let tree ← loadTree options.directory
  let run := (← loadSurroundings).run tree none args
  for (path, content) in run.tree.changesFrom tree do
    IO.FS.writeBinFile (String.ofList path) content
  (← IO.getStdout).putStr (String.ofList run.stdout)
  let stderr ← IO.getStderr
  stderr.putStr (String.ofList run.stderr)
  if let .raised e := run.outcome then
    stderr.putStrLn (String.ofList e.description)
  return UInt32.ofNat run.outcome.exitCode

end DebianPackaging

def main (args : List String) : IO UInt32 :=
  DebianPackaging.runOnDisk (args.map (·.toList))
