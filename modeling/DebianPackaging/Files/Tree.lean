import DebianPackaging.Text.Line
import DebianPackaging.Error

/-!
This module contains trees of files and directories and the look-up of the paths that name them.
-/

namespace DebianPackaging

/-- A path below a directory: an absolute path stands for itself. -/
def joinPath (directory path : Text) : Text :=
  if path.head? = some '/' then path
  else if directory.isEmpty || directory.getLast? = some '/' then directory ++ path
  else directory ++ '/' :: path

inductive Node where
  | file (content : ByteArray)
  | directory

/-- Files and directories, each with the names on the way to it from the root, and the directory where
relative paths start. -/
structure FileTree where
  workingDirectory : List Text := []
  nodes : List (List Text × Node) := []

namespace FileTree

def find? (tree : FileTree) : List Text → Option Node
  | [] => some .directory
  | names => tree.nodes.lookup names

def enter (dir : List Text) (part : Text) : List Text :=
  if part.isEmpty || part == "." then dir
  else if part == ".." then dir.dropLast
  else dir ++ [part]

/-- Follow the parts of a path from a directory on. The last part need not exist. -/
def walk (tree : FileTree) (path : Text) (dir : List Text) : List Text → Except Error (List Text)
  | [] => .ok dir
  | part :: parts =>
    match tree.find? dir with
    | none => .error (.fileNotFound path)
    | some (.file _) => .error (.notADirectory path)
    | some .directory => tree.walk path (enter dir part) parts

def start (tree : FileTree) (path : Text) : List Text :=
  if path.head? = some '/' then [] else tree.workingDirectory

def locate (tree : FileTree) (path : Text) : Except Error (List Text) :=
  if path.contains '\x00' then .error .invalidPath
  else if path.isEmpty then .error (.fileNotFound path)
  else tree.walk path (tree.start path) (path.splitOn '/')

def lookUp? (tree : FileTree) (path : Text) : Option Node :=
  match tree.locate path with
  | .ok names => tree.find? names
  | .error _ => none

def hasPath (tree : FileTree) (path : Text) : Bool := (tree.lookUp? path).isSome

def hasDirectory (tree : FileTree) (path : Text) : Bool :=
  match tree.lookUp? path with
  | some .directory => true
  | _ => false

def readBytes (tree : FileTree) (path : Text) : Except Error ByteArray := do
  match tree.find? (← tree.locate path) with
  | some (.file content) => return content
  | some .directory => throw (.isADirectory path)
  | none => throw (.fileNotFound path)

def decode (content : ByteArray) : Except Error Text :=
  match String.fromUTF8? content with
  | some s => .ok (Text.unifyNewlines s.toList)
  | none => .error .notUtf8

def encode (t : Text) : ByteArray := (String.ofList t).toUTF8

def readText (tree : FileTree) (path : Text) : Except Error Text := do
  decode (← tree.readBytes path)

def readText? (tree : FileTree) (path : Text) : Except Error (Option Text) :=
  match tree.readText path with
  | .ok t => .ok (some t)
  | .error (.fileNotFound _) => .ok none
  | .error e => .error e

def set (tree : FileTree) (names : List Text) (node : Node) : FileTree :=
  let nodes :=
    if tree.nodes.any (·.1 == names) then
      tree.nodes.map fun entry => if entry.1 == names then (names, node) else entry
    else tree.nodes ++ [(names, node)]
  { tree with nodes }

def writeText (tree : FileTree) (path : Text) (t : Text) : Except Error FileTree := do
  let names ← tree.locate path
  match tree.find? names with
  | some .directory => throw (.isADirectory path)
  | _ => return tree.set names (.file (encode t))

def names (tree : FileTree) (path : Text) : List Text :=
  (path.splitOn '/').foldl enter (tree.start path)

def addDirectories (tree : FileTree) (dir : List Text) : List Text → FileTree
  | [] => tree
  | name :: names =>
    let dir := dir ++ [name]
    let tree := if (tree.find? dir).isSome then tree else tree.set dir .directory
    tree.addDirectories dir names

def ofWorkingDirectory (names : List Text) : FileTree :=
  addDirectories { workingDirectory := names } [] names

def add (tree : FileTree) (path : Text) (node : Node) : FileTree :=
  let names := tree.names path
  (tree.addDirectories [] names.dropLast).set names node

def remove (tree : FileTree) (path : Text) : FileTree :=
  let names := tree.names path
  { tree with nodes := tree.nodes.filter (·.1 != names) }

def files (tree : FileTree) : List (List Text × ByteArray) :=
  tree.nodes.filterMap fun (names, node) =>
    match node with
    | .file content =>
      if tree.workingDirectory.isPrefixOf names then
        some (names.drop tree.workingDirectory.length, content)
      else none
    | .directory => none

def holds (tree : FileTree) (names : List Text) (content : ByteArray) : Bool :=
  match tree.find? names with
  | some (.file old) => old == content
  | _ => false

def changesFrom (tree old : FileTree) : List (Text × ByteArray) :=
  tree.nodes.filterMap fun (names, node) =>
    match node with
    | .file content =>
      if old.holds names content then none else some ('/' :: Text.join "/" names, content)
    | .directory => none

end FileTree

end DebianPackaging
