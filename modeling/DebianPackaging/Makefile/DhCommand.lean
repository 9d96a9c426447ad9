import DebianPackaging.Text.Blank

/-!
This module contains the edits of a single line that runs `dh`: listing, adding and dropping the
add-ons of its `--with` flags, and dropping and replacing its arguments. The line is taken as a plain
text whose arguments are separated by spaces and tabs.
-/

namespace DebianPackaging.DhCommand

def isInvocation (line : Text) : Bool :=
  match Text.after? "dh" line.trimStart with
  | some [] => true
  | some (c :: _) => isBlank c
  | none => false

/-- A `--with` flag with the gap in front of it, the character between the flag and its list, and what
follows. -/
structure WithFlag where
  gap : Char
  separator : Char
  rest : Text
  deriving DecidableEq, Repr

namespace WithFlag

def read? : Text → Option WithFlag
  | gap :: t =>
    if isGap gap then
      match Text.after? "--with" t with
      | some (c :: rest) => if c == ' ' || c == '=' then some ⟨gap, c, rest⟩ else none
      | _ => none
    else none
  | [] => none

theorem eq_of_read? {t : Text} {flag : WithFlag} (h : read? t = some flag)
    : t = flag.gap :: ("--with" : Text) ++ flag.separator :: flag.rest := by
  cases t with
  | nil => simp [read?] at h
  | cons gap t =>
    simp only [read?] at h
    split at h
    . split at h
      next c rest heq =>
        split at h
        . simp only [Option.some.injEq] at h
          subst h
          simp [Text.after?_eq_some_iff.1 heq]
        . simp at h
      next => simp at h
    . simp at h

def text (flag : WithFlag) : Text := flag.gap :: ("--with" : Text) ++ [flag.separator]

def list (flag : WithFlag) : Text := flag.rest.takeWhile fun c => !isGap c

def afterList (flag : WithFlag) : Text := flag.rest.dropWhile fun c => !isGap c

end WithFlag

def readList? (t : Text) : Option WithFlag := (WithFlag.read? t).filter (!·.list.isEmpty)

theorem length_afterList {t : Text} {flag : WithFlag} (h : readList? t = some flag)
    : flag.afterList.length < t.length := by
  simp only [readList?, Option.filter_eq_some_iff] at h
  have hlen : flag.afterList.length ≤ flag.rest.length := (List.dropWhile_suffix _).length_le
  have := congrArg List.length (WithFlag.eq_of_read? h.1)
  simp at this
  omega

def withLists : Text → List Text
  | [] => []
  | c :: t =>
    match h : readList? (c :: t) with
    | some flag =>
      have : flag.afterList.length < t.length + 1 := length_afterList h
      flag.list :: withLists flag.afterList
    | none => withLists t
termination_by t => t.length

def getWith (line : Text) : List Text := (withLists line).flatMap (·.splitOn ',')

def prependAddon? (addon t : Text) : Option (Text × Text) :=
  (readList? t).map fun flag =>
    (flag.gap :: ("--with=" : Text) ++ addon ++ "," ++ flag.list, flag.afterList)

def addWith (line addon : Text) : Text :=
  if Text.occursIn addon line then line
  else if !Text.occursIn " --with" line then line ++ " --with=" ++ addon
  else line.replaceFirst (prependAddon? addon)

/-- Drop a `--with` flag whose list is the add-on alone, at the end of the line or in front of more
arguments. -/
def dropSole? (addon t : Text) : Option (Text × Text) := do
  let flag ← WithFlag.read? t
  let rest ← Text.after? addon flag.rest
  let following : Option (Text × Text) :=
    match rest with
    | ' ' :: more =>
      let content := more.takeWhile (· != '\n')
      let behind := more.dropWhile (· != '\n')
      if !content.isEmpty && Text.isEnd behind then some (' ' :: content, behind) else none
    | _ => none
  following.or (if Text.isEnd rest then some ([], rest) else none)

def dropFirst? (addon t : Text) : Option (Text × Text) := do
  let flag ← WithFlag.read? t
  let rest ← Text.after? (addon ++ ",") flag.rest
  return (flag.text, rest)

def innerItem? (addon t : Text) : Option (Text × Text) :=
  match Text.after? (',' :: addon) t with
  | some (c :: rest) => if c == ' ' || c == ',' then some ([c], rest) else none
  | _ => none

def finalItem? (addon t : Text) : Option (Text × Text) :=
  match Text.after? (',' :: addon) t with
  | some rest => if Text.isEnd rest then some ([], rest) else none
  | none => none

/-- Drop the last add-on behind a `--with` flag that `item?` finds, unless it stands directly behind
the flag. -/
def dropItem? (item? : Text → Option (Text × Text)) (t : Text) : Option (Text × Text) := do
  let flag ← WithFlag.read? t
  let (front, kept, rest) ← Text.cutLast? item? flag.rest
  if front.isEmpty then none else some (flag.text ++ front ++ kept, rest)

def dropWith (line addon : Text) : Text :=
  if !Text.occursIn addon line then line
  else
    line
      |> Text.replaceFirst (dropSole? addon)
      |> Text.replaceFirst (dropFirst? addon)
      |> Text.replaceFirst (dropItem? (innerItem? addon))
      |> Text.replaceFirst (dropItem? (finalItem? addon))

/-- Apply `p` behind a run of spaces and tabs, which is taken as long as possible. -/
def behindGaps? (p : Text → Option β) : Text → Option β
  | c :: t => if isGap c then (behindGaps? p t).or (p t) else none
  | [] => none

def dropFinal? (argument t : Text) : Option (Text × Text) :=
  behindGaps? (fun u => ((Text.after? argument u).filter Text.isEnd).map fun rest => ([], rest)) t

def readArgument? (argument : Text) : Text → Option (Char × Text)
  | gap :: t => if isGap gap then (Text.after? argument t).map fun rest => (gap, rest) else none
  | [] => none

def dropInner? (argument t : Text) : Option (Text × Text) :=
  match readArgument? argument t with
  | some (gap, c :: rest) => if isGap c then some ([gap], rest) else none
  | _ => none

/-- Drop an argument, at most once at the end of the line and once inside of it. -/
def dropArgument (line argument : Text) : Text :=
  if !Text.occursIn argument line then line
  else
    line
      |> Text.replaceFirst (dropFinal? argument)
      |> Text.replaceFirst (dropInner? argument)

def replaceFinal? (old new t : Text) : Option (Text × Text) :=
  match readArgument? old t with
  | some (gap, rest) => if Text.isEnd rest then some (gap :: new, rest) else none
  | none => none

def replaceInner? (old new t : Text) : Option (Text × Text) :=
  match readArgument? old t with
  | some (gap, c :: rest) => if isGap c then some (gap :: new ++ [c], rest) else none
  | _ => none

/-- Turn an argument into another one, at most once at the end of the line and once inside of it. -/
def replaceArgument (line old new : Text) : Text :=
  if !Text.occursIn old line then line
  else
    line
      |> Text.replaceFirst (replaceFinal? old new)
      |> Text.replaceFirst (replaceInner? old new)

end DebianPackaging.DhCommand
