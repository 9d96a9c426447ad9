import DebianPackaging.Text.Decimal

/-!
This module contains the arguments of the program: the options, which may stand anywhere, and the words of
the command.
-/

namespace DebianPackaging

inductive ArgumentForm where
  | word
  | options (debug : Bool) (directory : Option Text)
  /-- Options the last of which takes the next argument as the directory. -/
  | beforeDirectory (debug : Bool)
  | help
  | version
  | unknown
  | malformed
  deriving DecidableEq, Repr

namespace ArgumentForm

def ofLetters (debug : Bool) : Text → ArgumentForm
  | [] => options debug none
  | ['C'] => beforeDirectory debug
  | 'C' :: '=' :: directory | 'C' :: directory => options debug (some directory)
  | 'd' :: t => ofLetters true t
  | '=' :: _ | '-' :: _ | 'h' :: '=' :: _ | 'h' :: '-' :: _ => malformed
  | 'h' :: _ => help
  | _ => unknown

/-- The options that are spelled out. That for the version stands in front of the command only. -/
def named (inFront : Bool) : List (Text × ArgumentForm) :=
  let shared : List (Text × ArgumentForm) :=
    [("--directory", beforeDirectory false), ("--debug", options true none), ("--help", help)]
  if inFront then ("--version", version) :: shared else shared

def ofName (inFront : Bool) (a : Text) : ArgumentForm :=
  match (named inFront).lookup a, Text.cut? '=' a with
  | some f, _ => f
  | none, some (name, value) =>
    match (named inFront).lookup name with
    | some (beforeDirectory _) => options false (some value)
    | some _ => malformed
    | none => unnamed
  | none, none => unnamed
where
  unnamed : ArgumentForm := if a.contains ' ' then word else unknown

/-- Whether what follows a hyphen makes a negative number of it. -/
def isNumber (t : Text) : Bool :=
  let t := if t.getLast? == some '\n' then t.dropLast else t
  let rest := t.dropWhile isDecimal
  if t.all isDecimal then !t.isEmpty
  else
    match rest with
    | '.' :: digits => !digits.isEmpty && digits.all isDecimal
    | _ => false

def ofText (inFront : Bool) (a : Text) : ArgumentForm :=
  match a with
  | '-' :: '-' :: _ => ofName inFront a
  | '-' :: c :: t =>
    if ['C', 'd', 'h'].contains c then ofLetters false (c :: t)
    else if isNumber (c :: t) || t.contains ' ' then word
    else unknown
  | _ => word

end ArgumentForm

inductive Token where
  | word (t : Text)
  /-- What follows it are words only. -/
  | separator
  | options (debug : Bool) (directory : Option Text)
  | help
  | version
  | unknown
  | malformed
  deriving DecidableEq, Repr

namespace Token

def separatorText : Text := "--"

def isWord (inFront : Bool) (a : Text) : Bool :=
  a != separatorText && ArgumentForm.ofText inFront a == .word

/-- The parts of a command line, or of what is left of it. Its first word ends what is in front of the
command. -/
def scan (inFront : Bool) : List Text → List Token
  | [] => []
  | a :: rest =>
    if a == separatorText then separator :: rest.map word
    else
      match ArgumentForm.ofText inFront a, rest with
      | .word, rest => word a :: scan false rest
      | .options debug directory, rest => options debug directory :: scan inFront rest
      | .beforeDirectory _, [] => [malformed]
      | .beforeDirectory debug, directory :: rest =>
        (if isWord inFront directory then options debug (some directory) else malformed) ::
          scan inFront rest
      | .help, rest => help :: scan inFront rest
      | .version, rest => version :: scan inFront rest
      | .unknown, rest => unknown :: scan inFront rest
      | .malformed, rest => malformed :: scan inFront rest

def word? : Token → Option Text
  | word t => some t
  | _ => none

def isOption : Token → Bool
  | word _ | separator => false
  | _ => true

/-- The words in parts that follow the name of a command. A separator goes with a word in front of it or
behind it, where no option is in between; a word that repeats it is a word only if the separator goes
with that one. -/
def words? (ts : List Token) : Option (List Text) :=
  let behind := (ts.reverse.takeWhile (!·.isOption)).reverse
  let last := behind.filterMap (·.word?)
  if behind.contains separator && (last.isEmpty || (last.drop 1).contains separatorText) then none
  else some (ts.filterMap (·.word?))

end Token

structure Options where
  directory : Text := "."
  debug : Bool := false
  deriving DecidableEq, Repr

namespace Options

/-- Take an option into account. Of several directories the last one counts, and an empty one is the
current directory. -/
def add (o : Options) : Token → Options
  | .options debug directory => {
      directory := (directory.map fun d => if d.isEmpty then ['.'] else d).getD o.directory
      debug := o.debug || debug }
  | _ => o

def ofTokens (ts : List Token) : Options := ts.foldl add {}

end Options

end DebianPackaging
